import BarScript.Kernel.Oscillator
import Mathlib

/-!
# Kernels that skip missing values

A kernel is fed a list of values, some of them missing. An average gives at each place what
`average` says of the values before that place that are not missing, so a missing value
repeats the last output. The other kernels give at the values that are not missing what
they would give without the others. Nothing is assumed of the four operations.
-/

namespace BarScript

open List Scalar

variable {α β σ : Type} [Scalar α]

namespace Kernel

variable (next : σ → α → β × σ) (k : σ)

/-- The outputs for the values of a list, fed one after another. -/
def outputs (k : σ) : List α → List β
  | [] => []
  | v :: rest => (next k v).1 :: outputs (next k v).2 rest

/-- The state after the values of a list. -/
def fed (xs : List α) : σ :=
  xs.foldl (fun k v => (next k v).2) k

/-- The values of a list that are not missing. -/
def present (xs : List α) : List α :=
  xs.filter fun v => !isMissing v

/-- Feeding a list leaves the same state as feeding what is present in it, and gives the
same outputs there. -/
structure Skips (xs : List α) : Prop where
  state : ∀ v, isMissing v = true → (next (fed next k xs) v).2 = fed next k xs
  fed_eq : fed next k xs = fed next k (present xs)
  outputs_eq : ((xs.zip (outputs next k xs)).filter fun e => !isMissing e.1).map Prod.snd =
    outputs next k (present xs)

variable {next}

theorem skips_of_state (h : ∀ k v, isMissing v = true → (next k v).2 = k) (xs : List α) :
    Skips next k xs := by
  refine ⟨h _, ?_, ?_⟩
  · induction xs generalizing k with
    | nil => rfl
    | cons v rest ih =>
      cases hv : isMissing v with
      | true => simpa [fed, present, hv, h k v hv] using ih k
      | false => simpa [fed, present, hv] using ih (next k v).2
  · induction xs generalizing k with
    | nil => rfl
    | cons v rest ih =>
      cases hv : isMissing v with
      | true => simpa [outputs, present, hv, h k v hv] using ih k
      | false => simpa [outputs, present, hv] using ih (next k v).2

end Kernel

open Kernel

namespace Ema

variable (period : Nat) (alpha : α)

/-- The average of values, the newest first: none before there are `period` values, then
the mean of the first ones, added up from the oldest on, and from then on a fraction of the
way from the last average to the new value. -/
def average : List α → α
  | [] => missing
  | v :: older =>
    if older.length + 1 < period then missing
    else if older.length + 1 = period then
      (v :: older).reverse.foldl (· + ·) (ofNat 0) / ofNat period
    else alpha * v + (ofNat 1 - alpha) * average older

/-- A state after values, the newest first. -/
structure Holds (vs : List α) (k : Ema α) : Prop where
  period_eq : k.period = period
  alpha_eq : k.alpha = alpha
  warming : vs.length < period → k.value = none ∧ k.count = vs.length ∧
    k.seedSum = vs.reverse.foldl (· + ·) (ofNat 0)
  seeded : period ≤ vs.length → k.value = some (average period alpha vs)

variable {period alpha} {vs : List α} {k : Ema α} {v : α}

theorem next_missing (k : Ema α) (hv : isMissing v = true) : (k.next v).2 = k := by
  simp [next, hv]

/-- A missing value repeats the average. -/
theorem Holds.repeats (h : Holds period alpha vs k) (hv : isMissing v = true) :
    (k.next v).1 = average period alpha vs := by
  have hout : (k.next v).1 = k.value.getD missing := by simp [next, hv]
  rw [hout]
  by_cases hlength : vs.length < period
  · rw [(h.warming hlength).1]
    cases vs with
    | nil => rfl
    | cons u older => exact (if_pos hlength).symm
  · rw [h.seeded (Nat.le_of_not_lt hlength)]
    rfl

/-- One value more. -/
theorem Holds.next (h : Holds period alpha vs k) (hv : isMissing v = false) :
    (k.next v).1 = average period alpha (v :: vs) ∧ Holds period alpha (v :: vs) (k.next v).2 := by
  by_cases hlength : vs.length < period
  · obtain ⟨hvalue, hcount, hsum⟩ := h.warming hlength
    have hsum' : (v :: vs).reverse.foldl (· + ·) (ofNat 0) = k.seedSum + v := by
      rw [hsum, reverse_cons, foldl_append]
      rfl
    by_cases hmore : vs.length + 1 < period
    · have hnext : k.next v =
          (missing, { k with count := k.count + 1, seedSum := k.seedSum + v }) := by
        simp [Ema.next, hv, hvalue, hcount, h.period_eq, hmore]
      rw [hnext]
      refine ⟨(if_pos hmore).symm, h.period_eq, h.alpha_eq, fun _ => ⟨hvalue, ?_, hsum'.symm⟩, ?_⟩
      · exact congrArg (· + 1) hcount
      · exact fun hle => absurd hmore (Nat.not_lt.2 hle)
    · -- the last value of the seed
      have heq : vs.length + 1 = period := by omega
      have haverage : average period alpha (v :: vs) =
          (k.seedSum + v) / ofNat period := by
        rw [average, if_neg hmore, if_pos heq, hsum']
      have hnext : k.next v = (average period alpha (v :: vs),
          { k with
            count := k.count + 1
            seedSum := k.seedSum + v
            value := some (average period alpha (v :: vs)) }) := by
        simp [Ema.next, hv, hvalue, hcount, h.period_eq, hmore, haverage]
      rw [hnext]
      exact ⟨rfl, h.period_eq, h.alpha_eq, fun hlt => absurd hlt hmore, fun _ => rfl⟩
  · have hvalue := h.seeded (Nat.le_of_not_lt hlength)
    have haverage : average period alpha (v :: vs) =
        alpha * v + (ofNat 1 - alpha) * average period alpha vs := by
      rw [average, if_neg (by omega), if_neg (by omega)]
    have hnext : k.next v = (average period alpha (v :: vs),
        { k with value := some (average period alpha (v :: vs)) }) := by
      simp [Ema.next, hv, hvalue, h.alpha_eq, haverage]
    rw [hnext]
    exact ⟨rfl, h.period_eq, h.alpha_eq, fun hlt => absurd hlt (by simp; omega), fun _ => rfl⟩

theorem Holds.outputs (h : Holds period alpha vs k) (xs : List α) (i : Nat)
    (hi : i < xs.length) : (outputs Ema.next k xs)[i]? =
      some (average period alpha ((present (xs.take (i + 1))).reverse ++ vs)) := by
  induction xs generalizing k vs i with
  | nil => cases hi
  | cons v rest ih =>
    cases hv : isMissing v with
    | true =>
      cases i with
      | zero => simp [Kernel.outputs, present, hv, h.repeats hv]
      | succ i =>
        rw [Kernel.outputs, next_missing k hv, getElem?_cons_succ,
          ih h i (Nat.lt_of_succ_lt_succ hi)]
        simp [present, hv]
    | false =>
      obtain ⟨hout, hk⟩ := h.next hv
      cases i with
      | zero => simp [Kernel.outputs, present, hv, hout]
      | succ i =>
        rw [Kernel.outputs, getElem?_cons_succ, ih hk i (Nat.lt_of_succ_lt_succ hi)]
        simp [present, hv]

/-- What an average with a weight gives for the values of a list. -/
structure Follows (period : Nat) (alpha : α) (k : Ema α) (xs : List α) : Prop where
  outputs : ∀ i < xs.length, (outputs Ema.next k xs)[i]? =
    some (average period alpha (present (xs.take (i + 1))).reverse)
  repeats : ∀ i v, xs[i + 1]? = some v → isMissing v = true →
    (Kernel.outputs Ema.next k xs)[i + 1]? = (Kernel.outputs Ema.next k xs)[i]?
  skips : Skips Ema.next k xs

theorem holds_nil (hp : 1 ≤ period) (alpha : α) :
    Holds period alpha [] ⟨period, alpha, ofNat 0, 0, none⟩ :=
  ⟨rfl, rfl, fun _ => ⟨rfl, rfl, rfl⟩, fun h => absurd hp (Nat.not_le.2 (Nat.lt_succ_of_le h))⟩

theorem withAlpha_follows (hp : 1 ≤ period) (alpha : α) (xs : List α) :
    ∃ k, withAlpha period alpha = .ok k ∧ Follows period alpha k xs := by
  refine ⟨⟨period, alpha, ofNat 0, 0, none⟩, if_neg (Nat.ne_of_gt hp), ?_⟩
  have hout := (holds_nil hp alpha).outputs xs
  simp only [append_nil] at hout
  refine ⟨hout, fun i v hi hv => ?_, skips_of_state _ (fun k v => next_missing k) xs⟩
  have hlt : i + 1 < xs.length := by
    by_contra hge
    rw [getElem?_eq_none (Nat.le_of_not_lt hge)] at hi
    cases hi
  have hsame : present (xs.take (i + 1 + 1)) = present (xs.take (i + 1)) := by
    rw [take_add_one, hi]
    simp [present, hv]
  rw [hout _ hlt, hout _ (Nat.lt_of_succ_lt hlt), hsame]

end Ema

/-- **The averages follow the seeded recurrence, and all kernels skip missing values.** -/
theorem kernels_skip_missing (period : Nat) (hp : 1 ≤ period) (xs : List α) :
    (∃ k, Ema.new period = .ok k ∧
      k.Follows period (Scalar.ofNat 2 / (Scalar.ofNat period + Scalar.ofNat 1)) xs) ∧
    (∃ k, Ema.running period = .ok k ∧
      k.Follows period (Scalar.ofNat 1 / Scalar.ofNat period) xs) ∧
    (∃ k, Rsi.new period = .ok k ∧ Skips Rsi.next k xs) ∧
    Skips Cumulative.next Cumulative.new xs := by
  obtain ⟨k, hk, hfollows⟩ :=
    Ema.withAlpha_follows hp (Scalar.ofNat 1 / Scalar.ofNat period : α) xs
  refine ⟨Ema.withAlpha_follows hp _ xs, ⟨k, hk, hfollows⟩, ⟨⟨none, k, k⟩, ?_, ?_⟩, ?_⟩
  · unfold Rsi.new
    rw [show Ema.running period = .ok k from hk]
    rfl
  · exact skips_of_state _ (fun k v hv => by simp [Rsi.next, hv]) xs
  · exact skips_of_state _ (fun k v hv => by simp [Cumulative.next, hv]) xs

theorem kernels_skip_missing_between : 1 ≤ 2 ∧ ∃ k : Ema Float, Ema.running 2 = .ok k ∧
    k.Follows 2 (Scalar.ofNat 1 / Scalar.ofNat 2) [1, Number.nan, 3, 5] :=
  ⟨by decide, (kernels_skip_missing 2 (by decide) [1, Number.nan, 3, 5]).2.1⟩

end BarScript

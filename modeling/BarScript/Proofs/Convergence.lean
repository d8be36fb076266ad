import BarScript.Proofs.Seeding

/-!
# Missing values in the convergence of two averages

The line, a fast average less a slow one, skips missing values as the averages do. The signal
does not: it is the average of all lines, and at a missing value it is fed the last line
again. So missing values are skipped as long as the line at them is missing too.
-/

namespace BarScript

open List Kernel

namespace Macd

variable {α : Type} [Scalar α] {k : Macd α} {v : α}

/-- The line alone. -/
def nextLine (k : Ema α × Ema α) (v : α) : α × (Ema α × Ema α) :=
  ((k.1.next v).1 - (k.2.next v).1, (k.1.next v).2, (k.2.next v).2)

theorem map_macd_outputs (k : Macd α) (xs : List α) :
    (outputs next k xs).map MacdPoint.macd = outputs nextLine (k.fast, k.slow) xs := by
  induction xs generalizing k with
  | nil => rfl
  | cons v rest ih => exact congrArg (_ :: ·) (ih (k.next v).2)

/-- The signal is the average of the lines, those at missing values included. -/
theorem map_signal_outputs (k : Macd α) (xs : List α) : (outputs next k xs).map MacdPoint.signal =
      outputs Ema.next k.signal ((outputs next k xs).map MacdPoint.macd) := by
  induction xs generalizing k with
  | nil => rfl
  | cons v rest ih => exact congrArg (_ :: ·) (ih (k.next v).2)

theorem histogram_outputs (k : Macd α) (xs : List α) :
    ∀ p ∈ outputs next k xs, p.histogram = p.macd - p.signal := by
  induction xs generalizing k with
  | nil => simp [outputs]
  | cons v rest ih => exact forall_mem_cons.2 ⟨rfl, ih (k.next v).2⟩

/-- The outputs at the values that are not missing. -/
def atPresent {β : Type} (xs : List α) (outs : List β) : List β :=
  ((xs.zip outs).filter fun e => !Scalar.isMissing e.1).map Prod.snd

theorem map_atPresent {β γ : Type} (f : β → γ) (xs : List α) (outs : List β) :
    (atPresent xs outs).map f = atPresent xs (outs.map f) := by
  unfold atPresent
  rw [zip_map_right, filter_map, map_map, map_map]
  rfl

theorem atPresent_lines (k : Macd α) (xs : List α) :
    (atPresent xs (outputs next k xs)).map MacdPoint.macd =
      (outputs next k (present xs)).map MacdPoint.macd := by
  have hskips : Skips nextLine (k.fast, k.slow) xs := by
    refine skips_of_state _ (fun k v hv => ?_) xs
    simp [nextLine, Ema.next_missing _ hv]
  rw [map_atPresent, map_macd_outputs, map_macd_outputs]
  exact hskips.outputs_eq

/-- A missing value at which the line is missing changes nothing. -/
theorem next_missing (hv : Scalar.isMissing v = true)
    (hline : Scalar.isMissing (k.next v).1.macd = true) : (k.next v).2 = k := by
  obtain ⟨fast, slow, signal⟩ := k
  have hsignal : (signal.next ((fast.next v).1 - (slow.next v).1)).2 = signal :=
    Ema.next_missing signal hline
  simp [next, Ema.next_missing _ hv, hsignal]

theorem atPresent_outputs (k : Macd α) (xs : List α)
    (h : ∀ e ∈ xs.zip (outputs next k xs), Scalar.isMissing e.1 = true →
      Scalar.isMissing e.2.macd = true) :
    atPresent xs (outputs next k xs) = outputs next k (present xs) := by
  induction xs generalizing k with
  | nil => rfl
  | cons v rest ih =>
    obtain ⟨hfirst, hrest⟩ := forall_mem_cons.1 h
    have ih := ih _ hrest
    unfold atPresent at ih ⊢
    cases hv : Scalar.isMissing v with
    | true =>
      rw [next_missing hv (hfirst hv)] at ih
      simpa [outputs, present, hv, next_missing hv (hfirst hv)] using ih
    | false => simpa [outputs, present, hv] using ih

end Macd

open Macd

/-- **The line skips missing values, and the signal those at which the line is missing.** -/
theorem convergence_skips_missing_lines {α : Type} [Scalar α] (fast slow signal : Nat)
    (hfast : 1 ≤ fast) (hslow : 1 ≤ slow) (hsignal : 1 ≤ signal) (xs : List α) :
    ∃ k, Macd.new fast slow signal = .ok k ∧
      (atPresent xs (outputs Macd.next k xs)).map MacdPoint.macd =
        (outputs Macd.next k (present xs)).map MacdPoint.macd ∧
      (outputs Macd.next k xs).map MacdPoint.signal =
        outputs Ema.next k.signal ((outputs Macd.next k xs).map MacdPoint.macd) ∧
      (∀ p ∈ outputs Macd.next k xs, p.histogram = p.macd - p.signal) ∧
      ((∀ e ∈ xs.zip (outputs Macd.next k xs), Scalar.isMissing e.1 = true →
          Scalar.isMissing e.2.macd = true) →
        atPresent xs (outputs Macd.next k xs) = outputs Macd.next k (present xs)) := by
  have hnew : ∀ period, 1 ≤ period → ∃ k : Ema α, Ema.new period = .ok k :=
    fun period hp => ⟨_, if_neg (Nat.ne_of_gt hp)⟩
  obtain ⟨f, hf⟩ := hnew fast hfast
  obtain ⟨s, hs⟩ := hnew slow hslow
  obtain ⟨l, hl⟩ := hnew signal hsignal
  refine ⟨⟨f, s, l⟩, ?_, atPresent_lines _ xs, map_signal_outputs _ xs,
    histogram_outputs _ xs, atPresent_outputs _ xs⟩
  unfold Macd.new
  rw [hf, hs, hl]
  rfl

theorem convergence_skips_missing_lines_early : (1 ≤ 1 ∧ 1 ≤ 2) ∧
    let xs : List Float := [1, Number.nan, 2]
    ∃ k, Macd.new 1 2 2 = .ok k ∧
      atPresent xs (outputs Macd.next k xs) = outputs Macd.next k (present xs) := by
  obtain ⟨k, hk, -, -, -, hskips⟩ := convergence_skips_missing_lines 1 2 2 (by decide) (by decide)
    (by decide) [(1 : Float), Number.nan, 2]
  cases hk
  exact ⟨by decide, _, rfl, hskips (by decide +kernel)⟩

/-- A missing value at which there is a line moves the signal. -/
theorem repeated_line_moves_signal : let xs : List Float := [1, 2, Number.nan, 4]
    ∃ k, Macd.new 1 2 2 = .ok k ∧
      atPresent xs (outputs Macd.next k xs) ≠ outputs Macd.next k (present xs) := by
  refine ⟨_, rfl, fun h => ?_⟩
  exact absurd (congrArg (map fun p => p.signal.toBits) h) (by decide +kernel)

end BarScript

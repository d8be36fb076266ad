import BarScript.Proofs.Fuel.Basic
import BarScript.Proofs.Regime.Library
import BarScript.Proofs.Simulation.Eval

/-!
# Enough fuel

A run on fuel *completes* as a plain run if, from some amount of fuel on, it comes to the
same end on the same machine, with the counter of calls as it was. What the log tells is
known with it: loops begin their bodies in turn and not too often, calls are entered and
left in turn and not too many at once, every machine is one of the regime, and a history is
assigned into itself exactly if the run stops for this.

This is kept by sequences, by loops and by calls, so it goes through the constructs of the
language once, and from there to whole runs.
-/

namespace BarScript

open Machine Fueled List

/-! ## Logs -/

section Logs

variable (rounds calls : Nat)

mutual

/-- Logs in order, of runs with a number of calls open. -/
inductive InOrder : (depth : Nat) → List Mark → Prop
  | nil : InOrder d []
  | state (m : Machine) : InOrder d [.state m]
  | storing (m : Machine) (base index v : Value) : InOrder d [.storing m base index v]
  | gave (m : Machine) (v : Value) : InOrder d [.gave m v]
  | append (h : InOrder d l) (h' : InOrder d l') : InOrder d (l ++ l')
  /-- A call is entered while another may be open, and leaves the counter as it was. -/
  | call (hd : d < calls) (h : InOrder (d + 1) l) : InOrder d (.entered (d + 1) :: (l ++ [.left d]))
  | loop (h : Rounds d 0 l) : InOrder d l

inductive Rounds : (depth : Nat) → (count : Nat) → List Mark → Prop
  | stop (h : InOrder d l) : Rounds d k l
  /-- The body is begun once more, while the limit is not reached. -/
  | turn (hk : k < rounds) (ht : InOrder d test)
    (hb : InOrder d body) (hr : Rounds d (k + 1) rest) :
    Rounds d k (test ++ .round (k + 1) :: (body ++ rest))

end

/-- Counts are within their limits. -/
def Mark.Within : Mark → Prop
  | .round n => n ≤ rounds
  | .entered depth => depth ≤ calls
  | _ => True

mutual

/-- **Logs in order keep the limits**: no body is begun too often, and not too many calls are
open at once. -/
theorem InOrder.within (h : InOrder rounds calls d l) : ∀ k ∈ l, k.Within rounds calls := by
  match h with
  | .nil => exact fun _ hk => by cases hk
  | .state _ | .storing _ _ _ _ | .gave _ _ => exact forall_mem_singleton.2 trivial
  | .append h h' => exact forall_mem_append.2 ⟨h.within, h'.within⟩
  | .call hd h =>
    refine forall_mem_cons.2 ⟨hd, forall_mem_append.2 ⟨h.within, ?_⟩⟩
    exact forall_mem_singleton.2 trivial
  | .loop h => exact h.within

theorem Rounds.within (h : Rounds rounds calls d k l) : ∀ k ∈ l, k.Within rounds calls := by
  match h with
  | .stop h => exact h.within
  | .turn hk ht hb hr =>
    refine forall_mem_append.2 ⟨ht.within, forall_mem_cons.2 ⟨hk, ?_⟩⟩
    exact forall_mem_append.2 ⟨hb.within, hr.within⟩

end

end Logs

/-- A machine that a mark tells of meets a condition. -/
def Mark.Meets (P : Machine → Prop) : Mark → Prop
  | .state m => P m
  | .storing m _ _ _ => P m
  | .gave m _ => P m
  | _ => True

theorem Mark.Meets.imp {k : Mark} (hk : k.Meets P) (h : ∀ m, P m → Q m) : k.Meets Q := by
  cases k with
  | state m => exact h m hk
  | storing m base index v => exact h m hk
  | gave m v => exact h m hk
  | _ => trivial

/-- A view of a history is to be assigned into the history itself. -/
def Mark.IsShared : Mark → Prop
  | .storing m base index v => ∃ r o o', base = .series r o ∧ v = .series r o' ∧
    m.heap.position? index ≠ none
  | _ => False

/-- A log tells of an assignment of a history into itself. -/
def SharedIn (l : List Mark) : Prop :=
  ∃ k ∈ l, k.IsShared

theorem sharedIn_nil : ¬ SharedIn [] :=
  fun ⟨_, hk, _⟩ => by cases hk

theorem sharedIn_cons : SharedIn (k :: l) ↔ k.IsShared ∨ SharedIn l := by
  simp only [SharedIn, mem_cons, exists_eq_or_imp]

theorem sharedIn_append : SharedIn (l ++ l') ↔ SharedIn l ∨ SharedIn l' := by
  simp only [SharedIn, mem_append, or_and_right, exists_or]

theorem sharedIn_singleton {k : Mark} (hk : ¬ k.IsShared) : ¬ SharedIn [k] := by
  rw [sharedIn_cons, or_iff_left sharedIn_nil]
  exact hk

/-- How a session ends whose machine ends so. -/
def Ending.within {α : Type} (depth : Nat) : Ending α → Except Halt α × Session
  | .ok a m => (.ok a, ⟨m, depth⟩)
  | .error h m => (.error h, ⟨m, depth⟩)

namespace Fueled

variable {α β : Type} {x : Fueled α} {f : α → Fueled β} {s s' s'' : Session} {l l' : List Mark}

theorem bind_ok (hx : x s = some (l, .ok a, s'))
    (hf : f a s' = some (l', e, s'')) : (x >>= f) s = some (l ++ l', e, s'') := by
  show andThen x f s = _
  unfold andThen
  rw [hx]
  dsimp only
  rw [hf]

theorem bind_error (hx : x s = some (l, .error h, s')) : (x >>= f) s = some (l, .error h, s') := by
  show andThen x f s = _
  unfold andThen
  rw [hx]

theorem work_eq (y : Exec α) (m : Machine) (d : Nat) :
    work y ⟨m, d⟩ = some (match y m with
      | .ok _ m' => [.state m']
      | .error _ m' => [.state m'], Ending.within d (y m)) := by
  unfold work
  cases y m <;> rfl

end Fueled

/-! ## Regimes for whole runs -/

/-- A regime that asks nothing of values and frames, and allows every error. -/
structure Regime.Wide.Lax (R : Regime.Wide) : Prop where
  fits : ∀ v, R.fits v
  frames : ∀ {m} fs, R.inv m → R.inv { m with heap := { m.heap with frames := fs } }
  error : ∀ {m} e, R.inv m → R.fails (.error e) m
  shared : ∀ {m}, R.inv m → R.fails .sharedWrite m

/-- The regime without assignments of a history into itself. -/
def Regime.Wide.calm (R : Regime.Wide) : Regime.Wide :=
  { R with
    fails := fun h m => R.fails h m ∧ h ≠ .sharedWrite
    common := fun hm he => ⟨R.common hm he, fun h => by cases h⟩
    unending := fun hm hv => ⟨R.unending hm hv, fun h => by cases h⟩ }

/-! ## Completion -/

namespace Fuel

variable (r : Rules) (R : Regime.Wide) {α β : Type}

/-- What is known of a run that has ended, beside its log. -/
structure Tells (log : List Mark) (Q : α → Prop) (e : Ending α) : Prop where
  meets : ∀ k ∈ log, k.Meets R.inv
  ending : match e with
    | .ok a m => R.inv m ∧ Q a
    | .error h m => R.inv m ∧ R.fails h m
  shared : SharedIn log ↔ ∃ m, e = .error .sharedWrite m

/-- With enough fuel, a run comes to the end that a plain run comes to. -/
def Completes (d : Nat) (L : List Mark → Prop) (Q : α → Prop) (x : Nat → Fueled α) (y : Exec α) :
    Prop :=
  ∀ m, R.inv m → ∃ N log, (∀ n, N ≤ n → x n ⟨m, d⟩ = some (log, Ending.within d (y m))) ∧
    L log ∧ Tells R log Q (y m)

abbrev Ends (d : Nat) (Q : α → Prop) (x : Nat → Fueled α) (y : Exec α) : Prop :=
  Completes R d (InOrder r.rounds r.calls d) Q x y

/-- Completion with an orderly log, of a run of whose results nothing is asked. -/
abbrev EndsAny (d : Nat) (x : Nat → Fueled α) (y : Exec α) : Prop :=
  Ends r R d (fun _ => True) x y

variable {r R} {d : Nat} {L L' : List Mark → Prop} {P Q : α → Prop} {T : β → Prop}
  {x : Nat → Fueled α} {y : Exec α}

theorem Completes.mono (h : Completes R d L P x y) (hL : ∀ l, L l → L' l) (hQ : ∀ a, P a → Q a) :
    Completes R d L' Q x y := by
  intro m hm
  obtain ⟨N, log, hrun, hlog, htells⟩ := h m hm
  refine ⟨N, log, hrun, hL log hlog, htells.meets, ?_, htells.shared⟩
  have hend := htells.ending
  revert hend
  cases y m with
  | ok a m' => exact fun hend => ⟨hend.1, hQ a hend.2⟩
  | error e m' => exact id

theorem Completes.succ (hx' : ∀ n m, x' (n + 1) ⟨m, d⟩ = x n ⟨m, d⟩)
    (h : Completes R d L Q x y) : Completes R d L Q x' y := by
  intro m hm
  obtain ⟨N, log, hrun, hlog⟩ := h m hm
  refine ⟨N + 1, log, fun n hn => ?_, hlog⟩
  obtain ⟨n, rfl⟩ := Nat.exists_eq_add_of_le' hn
  rw [← Nat.add_assoc, hx']
  exact hrun _ (Nat.le_add_left N n)

theorem Completes.next (h : Completes R d L Q (fun n => x' (n + 1)) y) : Completes R d L Q x' y :=
  .succ (fun _ _ => rfl) h

theorem ends_pure (h : Q a) : Ends r R d Q (fun _ => pure a) (pure a) := by
  refine fun m hm => ⟨0, [], fun _ _ => rfl, .nil, fun _ hk => (by cases hk), ⟨hm, h⟩, ?_⟩
  exact iff_of_false sharedIn_nil fun ⟨_, h⟩ => by cases h

/-- **Sequences** complete if their parts do. -/
theorem Completes.bind {f : Nat → α → Fueled β} {g : α → Exec β} {M : List Mark → Prop}
    (hx : Completes R d L Q x y) (hf : ∀ a, Q a → Completes R d M T (fun n => f n a) (g a))
    (hstop : ∀ l, L l → L' l) (happend : ∀ l l', L l → M l' → L' (l ++ l')) :
    Completes R d L' T (fun n => x n >>= f n) (y >>= g) := by
  intro m hm
  obtain ⟨N, log, hrun, hlog, htells⟩ := hx m hm
  have hend := htells.ending
  have hshared := htells.shared
  cases hy : y m with
  | ok a m' =>
    rw [hy] at hend hshared
    obtain ⟨N', log', hrun', hlog', htells'⟩ := hf a hend.2 m' hend.1
    rw [Exec.bind_ok hy]
    refine ⟨max N N', log ++ log', fun n hn => ?_, happend _ _ hlog hlog',
      forall_mem_append.2 ⟨htells.meets, htells'.meets⟩, htells'.ending, ?_⟩
    · have hfirst := hrun n (Nat.le_trans (Nat.le_max_left N N') hn)
      rw [hy] at hfirst
      exact Fueled.bind_ok hfirst (hrun' n (Nat.le_trans (Nat.le_max_right N N') hn))
    · -- the first part has come to its end, so nothing in its log is shared
      have hnone : ¬ SharedIn log := fun h => by
        obtain ⟨_, h⟩ := hshared.1 h
        cases h
      rw [sharedIn_append, or_iff_right hnone]
      exact htells'.shared
  | error e m' =>
    rw [hy] at hend hshared
    rw [Exec.bind_error hy]
    refine ⟨N, log, fun n hn => ?_, hstop _ hlog, htells.meets, hend, hshared.trans ?_⟩
    · have hfirst := hrun n hn
      rw [hy] at hfirst
      exact Fueled.bind_error hfirst
    · constructor
      · rintro ⟨m₁, h⟩
        cases h
        exact ⟨_, rfl⟩
      · rintro ⟨m₁, h⟩
        cases h
        exact ⟨_, rfl⟩

theorem Ends.bind {f : Nat → α → Fueled β} {g : α → Exec β} (hx : Ends r R d Q x y)
    (hf : ∀ a, Q a → Ends r R d T (fun n => f n a) (g a)) :
    Ends r R d T (fun n => x n >>= f n) (y >>= g) :=
  Completes.bind hx hf (fun _ h => h) fun _ _ h h' => .append h h'

theorem ends_work (hy : R.calm.Keeps Q y) : Ends r R d Q (fun _ => work y) y := by
  intro m hm
  have hend := hy m hm
  refine ⟨0, _, fun n _ => work_eq y m d, ?_⟩
  revert hend
  cases y m with
  | ok a m' =>
    refine fun hend => ⟨.state m', forall_mem_singleton.2 hend.1, hend, ?_⟩
    exact iff_of_false (sharedIn_singleton id) fun ⟨_, h⟩ => by cases h
  | error e m' =>
    refine fun hend => ⟨.state m', forall_mem_singleton.2 hend.1, ⟨hend.1, hend.2.1⟩, ?_⟩
    refine iff_of_false (sharedIn_singleton id) fun ⟨_, h⟩ => ?_
    cases h
    exact hend.2.2 rfl

/-- A mark that is not of a shared assignment changes nothing. -/
theorem Completes.note {mark : Session → Mark} {f : Nat → Unit → Fueled α}
    (hmeets : ∀ m, R.inv m → (mark ⟨m, d⟩).Meets R.inv) (hplain : ∀ s, ¬ (mark s).IsShared)
    (h : Completes R d L Q (fun n => f n ()) y) (hL : ∀ s l, L l → L' (mark s :: l)) :
    Completes R d L' Q (fun n => note mark >>= f n) y := by
  intro m hm
  obtain ⟨N, log, hrun, hlog, htells⟩ := h m hm
  refine ⟨N, mark ⟨m, d⟩ :: log, fun n hn => ?_, hL _ _ hlog,
    forall_mem_cons.2 ⟨hmeets m hm, htells.meets⟩, htells.ending, ?_⟩
  · exact Fueled.bind_ok (l := [mark ⟨m, d⟩]) rfl (hrun n hn)
  · rw [sharedIn_cons, or_iff_right (hplain _)]
    exact htells.shared

/-- **Calls** complete if what they run does, one call deeper. -/
theorem Ends.nested (hd : d < r.calls) (h : Ends r R (d + 1) Q x y) :
    Ends r R d Q (fun n => nested (x n)) y := by
  intro m hm
  obtain ⟨N, log, hrun, hlog, htells⟩ := h m hm
  refine ⟨N, .entered (d + 1) :: (log ++ [.left d]), fun n hn => ?_, .call hd hlog, ?_,
    htells.ending, ?_⟩
  · unfold Fueled.nested
    dsimp only
    rw [hrun n hn]
    cases y m <;> rfl
  · refine forall_mem_cons.2 ⟨trivial, forall_mem_append.2 ⟨htells.meets, ?_⟩⟩
    exact forall_mem_singleton.2 trivial
  · have hentered : ¬ (Mark.entered (d + 1)).IsShared := id
    rw [sharedIn_cons, or_iff_right hentered, sharedIn_append,
      or_iff_left (sharedIn_singleton (k := .left d) id)]
    exact htells.shared

/-! ## Assignments of elements -/

/-- An element is refused as shared exactly if a history would be assigned into itself. -/
theorem writeElement_shared_iff (base index v : Value) (m : Machine) :
    (∃ m', writeElement base index v m = .error .sharedWrite m') ↔
      (Mark.storing m base index v).IsShared := by
  have hnumber : (Exec.heap fun h => h.number index) m = .ok (m.heap.number index) m := rfl
  have hposition : (Exec.heap fun h => h.position? index) m = .ok (m.heap.position? index) m := rfl
  constructor
  · rintro ⟨m', h⟩
    obtain ⟨r, o, o', rfl, rfl⟩ : ∃ r o o', base = .series r o ∧ v = .series r o' := by
      have hkeeps := Regime.writeElement_keeps (v := v)
        (R := .ofFailures (fun h => h = .sharedWrite → ∃ r o o', base = .series r o ∧
          v = .series r o') (fun _ _ h => by cases h) fun h => by cases h)
        base index trivial (fun hbase hv _ _ => ⟨_, _, _, hbase, hv⟩) m trivial
      rw [h] at hkeeps
      exact hkeeps.2 rfl
    refine ⟨r, o, o', rfl, rfl, fun hnone => ?_⟩
    rw [hnone] at hposition
    rw [writeElement, Exec.bind_ok hnumber, Exec.bind_ok hposition] at h
    cases h
  · rintro ⟨r, o, o', rfl, rfl, hsome⟩
    obtain ⟨i, hi⟩ := Option.ne_none_iff_exists'.1 hsome
    rw [hi] at hposition
    rw [writeElement, Exec.bind_ok hnumber, Exec.bind_ok hposition]
    dsimp only
    rw [if_pos (show showsHistory r (.series r o') = true from beq_self_eq_true r)]
    exact ⟨m, rfl⟩

theorem ends_store (hR : R.Lax) (base index v : Value) :
    EndsAny r R d (fun _ => do
      note fun s => .storing s.machine base index v
      work (writeElement base index v)) (writeElement base index v) := by
  intro m hm
  have hend := Regime.writeElement_keeps base index (hR.fits v) (fun _ _ => hR.shared) m hm
  refine ⟨0, _, fun n _ => Fueled.bind_ok (l := [.storing m base index v]) rfl (work_eq _ m d), ?_⟩
  have hshared := writeElement_shared_iff base index v m
  have hlog : ∀ m', SharedIn [.storing m base index v, .state m'] ↔
      (Mark.storing m base index v).IsShared := fun m' => by
    rw [sharedIn_cons, or_iff_left (sharedIn_singleton (k := .state m') id)]
  revert hend hshared
  cases writeElement base index v m with
  | ok a m' =>
    refine fun hend hshared => ⟨.append (.storing _ _ _ _) (.state m'),
      forall_mem_cons.2 ⟨hm, forall_mem_singleton.2 hend.1⟩, hend, ?_⟩
    exact (hlog m').trans hshared.symm
  | error e m' =>
    refine fun hend hshared => ⟨.append (.storing _ _ _ _) (.state m'),
      forall_mem_cons.2 ⟨hm, forall_mem_singleton.2 hend.1⟩, hend, ?_⟩
    exact (hlog m').trans hshared.symm

end Fuel

end BarScript

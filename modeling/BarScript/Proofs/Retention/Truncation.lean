import BarScript.Proofs.Retention.Readings

/-!
# A bounded history is a truncation

A history that keeps a number of values goes through any changes side by side with
one that keeps all of them, and shows the newest of its values. What carries this is
that each change commutes with `keep`: a new bar pushes out what `keep` would drop, and
a write beyond the kept depth is lost on both sides.
-/

namespace BarScript.History

variable {α : Type} {c : Nat} {s : History α}

/-- A change of a history. -/
inductive Edit (α : Type) where
  | push (v : α)
  | setCurrent (v : α)
  | set (barsAgo : Nat) (v : α)
  | advance

def edit (s : History α) : Edit α → History α
  | .push v => s.push v
  | .setCurrent v => s.setCurrent v
  | .set i v => s.set i v
  | .advance => s.advance

theorem keep_push (hs : s.capacity = none) (v : α) : (s.push v).keep c = (s.keep c).push v := by
  obtain ⟨values, capacity⟩ := s
  cases (hs : capacity = none)
  cases c with
  | zero => rfl
  | succ n => simp [keep, push, cut, List.take_take]

theorem capacity_edit (s : History α) (e : Edit α) : (s.edit e).capacity = s.capacity := by
  cases e with
  | push v | set i v => rfl
  | setCurrent v => exact s.capacity_setCurrent v
  | advance => exact s.capacity_advance

/-- One change, beside the same change of a truncation. -/
theorem keep_edit (hc : 1 ≤ c) (hs : s.capacity = none) (e : Edit α) :
    (s.edit e).keep c = (s.keep c).edit e := by
  cases e with
  | push v => exact keep_push hs v
  | setCurrent v => exact s.keep_setCurrent hc v
  | set i v => exact s.keep_set i v
  | advance => exact s.keep_advance hc hs

theorem keep_edits (hc : 1 ≤ c) (hs : s.capacity = none) (edits : List (Edit α)) :
    (edits.foldl edit s).keep c = edits.foldl edit (s.keep c) := by
  induction edits generalizing s with
  | nil => rfl
  | cons e rest ih =>
    rw [List.foldl_cons, List.foldl_cons, ih ((s.capacity_edit e).trans hs), keep_edit hc hs e]

theorem reaches_keep (s : History α) (i : Nat) :
    (s.keep c).reaches i = true ↔ i < c ∧ i < s.length := by
  simp [reaches, keep, length]

/-- **A bounded history is the truncation of the unbounded one**, whatever changes both
have gone through. It shows the same at every index that it can keep, and a write takes
place if the index is one of these and the unbounded history has it. -/
theorem bounded_history_truncates (c : Nat) (edits : List (Edit α)) :
    let whole := edits.foldl edit (new none)
    let bounded := edits.foldl edit (new (some c))
    bounded.values = whole.values.take (max c 1) ∧
      (∀ i < max c 1, bounded.get? i = whole.get? i) ∧
      ∀ i, (bounded.reaches i = true ↔ i < max c 1 ∧ i < whole.length) ∧
        ∀ v, (bounded.set i v).get? i = some v ↔ bounded.reaches i = true := by
  intro whole bounded
  have hc : 1 ≤ max c 1 := Nat.le_max_right c 1
  have hstart : (new none : History α).keep (max c 1) = new (some c) := by
    rw [keep_new hc]
    simp [new, Nat.max_comm]
  have hkeep : whole.keep (max c 1) = bounded := by
    rw [keep_edits hc rfl edits, hstart]
  rw [← hkeep]
  refine ⟨rfl, fun i hi => ?_, fun i => ⟨whole.reaches_keep i, fun v => ?_⟩⟩
  · exact List.getElem?_take_of_lt hi
  · unfold set get? reaches
    rw [decide_eq_true_iff]
    grind

end BarScript.History

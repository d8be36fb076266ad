import BarScript.Proofs.Retention.Readings
import BarScript.Proofs.Trace.Erasure

/-!
# Work on histories that forget

Two machines that differ only in how much their histories keep are worked on side by
side. A piece of work that ends well where everything is kept, and looks no further
back than the other histories reach, ends the same way on these, and the machines
still differ in nothing else.
-/

namespace BarScript

open Machine Exec

variable {c : Nat} {α β : Type}

def Config.keep (c : Nat) (config : Config) : Config :=
  { config with maxHistory := some c }

/-- A machine whose histories keep a number of values each. -/
def Machine.keep (c : Nat) (m : Machine) : Machine :=
  ⟨m.heap.keep c, { m.context with config := m.context.config.keep c }⟩

/-- A machine whose histories keep everything. -/
structure Unbounded (m : Machine) : Prop where
  sound : m.heap.Sound
  capacity : ∀ r, (m.heap.history r).capacity = none
  config : m.context.config.maxHistory = none

/-- Work that ends well ends the same way on histories that forget. -/
def Same (c : Nat) (P : α → Prop) (x : Exec α) (m : Machine) : Prop :=
  ∀ a m', x m = .ok a m' → P a ∧ Unbounded m' ∧ x (m.keep c) = .ok a (m'.keep c)

/-- Work of whose results nothing is asked. -/
abbrev SameAny (c : Nat) (x : Exec α) (m : Machine) : Prop :=
  Same c (fun _ => True) x m

namespace Same

variable {P : α → Prop} {Q : β → Prop} {m : Machine}

theorem bind (hx : Same c P x m)
    (hf : ∀ a m', x m = .ok a m' → P a → Unbounded m' → Same c Q (f a) m') :
    Same c Q (x >>= f) m := by
  intro b m' h
  obtain ⟨a, m₁, ha, hb⟩ := bind_eq_ok h
  obtain ⟨hP, hm₁, hkept⟩ := hx a m₁ ha
  obtain ⟨hQ, hm', hkept'⟩ := hf a m₁ ha hP hm₁ b m' hb
  exact ⟨hQ, hm', (bind_ok hkept).trans hkept'⟩

theorem weaken (hx : Same c P x m) (hP : ∀ a, P a → P' a) : Same c P' x m := fun a m' h => by
  obtain ⟨ha, hm', hkept⟩ := hx a m' h
  exact ⟨hP a ha, hm', hkept⟩

end Same

section Work

variable {P : α → Prop} {m : Machine} (hm : Unbounded m)

variable {f : Heap → α} {g : α → Exec β} {v : Value} {r : Ref}

theorem same_throw (e : Halt) : Same c P (throw e : Exec α) m := fun _ _ h => by cases h

theorem same_fail (e : RuntimeError) : Same c P (fail e : Exec α) m := fun _ _ h => by cases h

theorem same_context_bind {f : Context → α} {Q : β → Prop}
    (hf : f (m.keep c).context = f m.context) (hg : Same c Q (g (f m.context)) m) :
    Same c Q (Exec.context f >>= g) m := fun b m' h => by
  obtain ⟨hQ, hm', hkept⟩ := hg b m' h
  refine ⟨hQ, hm', Eq.trans ?_ hkept⟩
  exact congrArg (g · (m.keep c)) hf

include hm

theorem same_pure (ha : P a) : Same c P (pure a : Exec α) m := fun _ _ h => by
  cases h
  exact ⟨ha, hm, rfl⟩

theorem same_heap (hf : f (m.heap.keep c) = f m.heap) (hP : P (f m.heap)) :
    Same c P (Exec.heap f) m := fun _ _ h => by
  cases h
  exact ⟨hP, hm, congrArg (EStateM.Result.ok · (m.keep c)) hf⟩

theorem same_heap_bind (hf : f (m.heap.keep c) = f m.heap)
    (hg : Same c Q (g (f m.heap)) m) : Same c Q (Exec.heap f >>= g) m :=
  (same_heap hm (P := fun a => a = f m.heap) hf rfl).bind fun a m' h ha _ => by
    cases h
    exact hg

theorem same_heap? {f : Heap → Option α} (hf : f (m.heap.keep c) = f m.heap)
    (hP : ∀ a, f m.heap = some a → P a) : Same c P (heap? f) m := fun a m' h => by
  obtain ⟨ha, rfl⟩ := heap?_eq_ok h
  refine ⟨hP a ha, hm, ?_⟩
  have hkeep : f (m'.keep c).heap = some a := hf.trans ha
  rw [heap?_eq, hkeep]
  rfl

theorem same_alloc {f : Heap → α × Heap}
    (hf : f (m.heap.keep c) = ((f m.heap).1, (f m.heap).2.keep c)) (hs : (f m.heap).2.Sound)
    (hcap : ∀ r, ((f m.heap).2.history r).capacity = none) (hP : P (f m.heap).1) :
    Same c P (alloc f) m := fun _ _ h => by
  cases h
  refine ⟨hP, ⟨hs, hcap, hm.config⟩, ?_⟩
  show EStateM.Result.ok (f (m.heap.keep c)).1 { m.keep c with heap := (f (m.heap.keep c)).2 } = _
  rw [hf]
  rfl

theorem same_modifyHeap {f : Heap → Heap} (hf : f (m.heap.keep c) = (f m.heap).keep c)
    (hs : (f m.heap).Sound) (hcap : ∀ r, ((f m.heap).history r).capacity = none) :
    SameAny c (modifyHeap f) m := fun _ _ h => by
  cases h
  refine ⟨trivial, ⟨hs, hcap, hm.config⟩, ?_⟩
  show EStateM.Result.ok () { m.keep c with heap := f (m.heap.keep c) } = _
  rw [hf]
  rfl

/-- A change of the context that does not look at the settings. -/
theorem same_modifyContext {f : Context → Context}
    (hf : f (m.keep c).context = { f m.context with config := (f m.context).config.keep c })
    (hconfig : (f m.context).config = m.context.config) :
    SameAny c (modifyContext f) m := fun _ _ h => by
  cases h
  refine ⟨trivial, ⟨hm.sound, hm.capacity, ?_⟩, ?_⟩
  · rw [hconfig, hm.config]
  · show EStateM.Result.ok () { m.keep c with context := f (m.keep c).context } = _
    rw [hf]
    rfl

/-! ## New places -/

theorem same_newArray {items : Array Value} (hitems : ∀ v ∈ items.toList, ¬ v.IsSeries) :
    Same c (fun v => ¬ v.IsSeries) (alloc fun h => h.newArray items) m :=
  same_alloc hm rfl (hm.sound.newArray hitems) hm.capacity id

theorem same_newObject (hfields : ∀ f ∈ fields, ¬ f.2.IsSeries) :
    Same c (fun v => ¬ v.IsSeries) (alloc fun h => h.newObject (.ofList fields)) m := by
  refine same_alloc hm rfl (hm.sound.newObject (Dict.ordered_ofList _) fun v hv => ?_)
    hm.capacity id
  obtain ⟨p, hp, rfl⟩ := List.mem_map.1 (Dict.mem_values_ofList hv)
  exact hfields p hp

theorem same_newFrame (d : Dict Value) : SameAny c (alloc fun h => h.newFrame d) m :=
  same_alloc hm rfl (hm.sound.newFrame d) hm.capacity trivial

theorem same_newHistory {s : History Value} (hs : s.keep c = s') (hcap : s.capacity = none)
    (hv : ∀ v ∈ s.values, ¬ v.IsSeries) :
    ∀ r m', alloc (fun h => h.newHistory s) m = .ok r m' → Unbounded m' ∧
      alloc (fun h => h.newHistory s') (m.keep c) = .ok r (m'.keep c) := by
  intro r m' h
  cases h
  refine ⟨⟨hm.sound.newHistory hv, fun q => ?_, hm.config⟩, ?_⟩
  · show ((m.heap.newHistory s).2.history q).capacity = none
    rw [Heap.history_newHistory]
    split
    · exact hcap
    · exact hm.capacity q
  · show EStateM.Result.ok (m.heap.histories.map (History.keep c)).size
      { m.keep c with heap := ((m.heap.keep c).newHistory s').2 } = _
    rw [Array.size_map, ← hs]
    have hpush : ((m.heap.keep c).newHistory (s.keep c)).2 = (m.heap.newHistory s).2.keep c := by
      unfold Heap.newHistory Heap.keep
      simp only [Array.map_push]
    rw [hpush]
    rfl

theorem same_newSeries (hc : 1 ≤ c) (hv : ¬ v.IsSeries) : SameAny c (newSeries v) m := by
  intro r m' h
  have hnew : newSeries v m = alloc (fun h => h.newHistory (.withCurrent v none)) m := by
    show alloc (fun h => h.newHistory (.withCurrent v m.context.config.maxHistory)) m = _
    rw [hm.config]
  rw [hnew] at h
  obtain ⟨hm', hkept⟩ := same_newHistory hm (History.keep_withCurrent hc v) rfl
    (fun u hu => by rwa [History.mem_withCurrent hu]) r m' h
  exact ⟨trivial, hm', hkept⟩

/-! ## Changes -/

theorem same_modifyHistory {f : History Value → History Value}
    (hf : ∀ s, s.capacity = none → (f s).keep c = f (s.keep c) ∧ (f s).capacity = none)
    (hv : ∀ s, (∀ v ∈ s.values, ¬ v.IsSeries) → ∀ v ∈ (f s).values, ¬ v.IsSeries) :
    SameAny c (modifyHeap fun h => h.modifyHistory r f) m := by
  refine same_modifyHeap hm ?_ (hm.sound.modifyHistory hv) fun q => ?_
  · refine congrArg (fun histories => { m.heap with histories }) (Array.ext_getElem? fun j => ?_)
    show ((m.heap.histories.map (History.keep c)).modify r f)[j]? =
      ((m.heap.histories.modify r f).map (History.keep c))[j]?
    simp only [Array.getElem?_modify, Array.getElem?_map]
    cases hj : m.heap.histories[j]? with
    | none => split <;> rfl
    | some s =>
      have hs : s.capacity = none := by
        have hcap := hm.capacity j
        unfold Heap.history at hcap
        rwa [Array.getD_eq_getD_getElem?, hj] at hcap
      split
      · exact congrArg some (hf s hs).1.symm
      · rfl
  · rw [Heap.history_modifyHistory]
    split
    · exact (hf _ (hm.capacity r)).2
    · exact hm.capacity q

theorem same_setCurrent (hc : 1 ≤ c) (hv : ¬ v.IsSeries) : SameAny c
      (modifyHeap fun h => h.modifyHistory r fun s => s.setCurrent v) m := by
  refine same_modifyHistory hm (fun s hs => ⟨s.keep_setCurrent hc v, ?_⟩) fun s hs u hu => ?_
  · rw [History.capacity_setCurrent]
    exact hs
  · rcases History.mem_setCurrent hu with rfl | hu
    · exact hv
    · exact hs u hu

theorem same_modifyArray {f : Array Value → Array Value}
    (hf : ∀ a, (∀ v ∈ a.toList, ¬ v.IsSeries) → ∀ v ∈ (f a).toList, ¬ v.IsSeries) :
    SameAny c (modifyHeap fun h => h.modifyArray r f) m :=
  same_modifyHeap hm rfl (hm.sound.modifyArray hf) hm.capacity

theorem same_define (r : Ref) (name : String) (v : Value) :
    SameAny c (modifyHeap fun h => h.define r name v) m :=
  same_modifyHeap hm rfl (hm.sound.define name v) hm.capacity

end Work

end BarScript

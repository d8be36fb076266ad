import BarScript.Proofs.Fuel.Endings

/-!
# Arrays and objects inside themselves

Arrays and objects are shared, so one that is assigned into itself, or into something that it
contains, contains itself from then on. As long as there is no such array or object, texts,
copies and roundings of all values end. Once there is one, it has no copy.

A change of one array or object that leaves the others alone closes a circle exactly if
something that it contains afterwards contained it before. So an assignment does so exactly
if the value is, or contains, what it is assigned into.
-/

namespace BarScript

open Machine Relation

theorem not_shallow_of_cycle {V : Type} {parts : V → List V} {v : V}
    (hv : TransGen (fun a b => b ∈ parts a) v v) (n : Nat) : ¬ Shallow parts n v := by
  induction n generalizing v with
  | zero => exact id
  | succ n ih =>
    obtain ⟨u, hu, huv⟩ := TransGen.head'_iff.1 hv
    exact fun hshallow => ih (TransGen.tail' huv hu) (hshallow u hu)

namespace Heap

variable {h k : Heap} {c : Value}

theorem exists_uncopied_of_cyclic (hs : h.Sound) (hcyclic : h.Cyclic) :
    ∃ v, h.collapsed? v = none := by
  obtain ⟨v, hv⟩ := hcyclic
  obtain ⟨w, -, hw⟩ := TransGen.tail'_iff.1 hv
  have hstep : ∀ a, ¬ a.IsSeries → ∀ b ∈ h.contents a, b ∈ h.snapshotParts (h.seenAs true a) := by
    intro a ha b hb
    rw [show h.seenAs true a = h.current a from hs.settle_eq_current a]
    cases a with
    | series r o => exact absurd trivial ha
    | _ => exact (h.snapshotParts_eq_contents ha).symm ▸ hb
  -- the circle goes through contents, and those are no series
  have hparts : ∀ u, TransGen (fun a b => b ∈ h.contents a) v u →
      TransGen (fun a b => b ∈ h.snapshotParts (h.seenAs true a)) v u := by
    intro u hu
    induction hu with
    | single hb => exact .single (hstep v (hs.contents hw) _ hb)
    | tail hvb hb ih =>
      obtain ⟨_, -, hc⟩ := TransGen.tail'_iff.1 hvb
      exact ih.tail (hstep _ (hs.contents hc) _ hb)
  refine ⟨v, ?_⟩
  unfold collapsed?
  rw [snapshotWithin_eq]
  refine Option.not_isSome_iff_eq_none.1 fun hsome => ?_
  exact not_shallow_of_cycle (hparts v hv) _ (readWithin_isSome_iff.1 hsome)

/-- One value is another, or contains it at some depth. -/
def Reaches (h : Heap) : Value → Value → Prop :=
  ReflTransGen fun a b => b ∈ h.contents a

section Change

variable (hk : ∀ a ≠ c, k.contents a = h.contents a)

include hk

/-- What reaches a value does not depend on what that value contains. -/
theorem Reaches.of_change (hu : h.Reaches u c) : k.Reaches u c := by
  induction hu using ReflTransGen.head_induction_on with
  | refl => exact .refl
  | @head a b hab _ ih =>
    by_cases ha : a = c
    · exact ha ▸ .refl
    · exact .head ((hk a ha).symm ▸ hab) ih

/-- **A change of one array or object** closes a circle exactly if something that it contains
afterwards contained it before. -/
theorem cyclic_change_iff (hh : ¬ h.Cyclic) : k.Cyclic ↔ ∃ u ∈ k.contents c, h.Reaches u c := by
  constructor
  · rintro ⟨v, hv⟩
    by_cases hc : TransGen (fun a b => b ∈ k.contents a) c c
    · obtain ⟨u, hu, huc⟩ := TransGen.head'_iff.1 hc
      exact ⟨u, hu, Reaches.of_change (fun a ha => (hk a ha).symm) huc⟩
    · -- a circle that does not go through `c` was there before
      have hold : ∀ w, TransGen (fun a b => b ∈ k.contents a) v w → k.Reaches w v →
          TransGen (fun a b => b ∈ h.contents a) v w := by
        intro w hw
        induction hw with
        | single hb =>
          intro hback
          refine .single (hk v ?_ ▸ hb)
          rintro rfl
          exact hc hv
        | @tail a b hva hb ih =>
          intro hback
          refine (ih (.head hb hback)).tail (hk a ?_ ▸ hb)
          rintro rfl
          exact hc ((TransGen.head' hb hback).trans hva)
      exact absurd ⟨v, hold v hv .refl⟩ hh
  · rintro ⟨u, hu, huc⟩
    exact ⟨c, TransGen.head' hu (huc.of_change hk)⟩

theorem cyclic_store_iff (hh : ¬ h.Cyclic) (hv : v ∈ k.contents c)
    (hold : ∀ u ∈ k.contents c, u = v ∨ u = .na ∨ u ∈ h.contents c) : k.Cyclic ↔ h.Reaches v c := by
  rw [cyclic_change_iff hk hh]
  refine ⟨fun ⟨u, hu, huc⟩ => ?_, fun hvc => ⟨v, hv, hvc⟩⟩
  rcases hold u hu with rfl | rfl | hmem
  · exact huc
  · rcases ReflTransGen.cases_head huc with rfl | ⟨_, hb, -⟩
    · cases hv
    · cases hb
  · exact absurd ⟨c, TransGen.head' hmem huc⟩ hh

end Change

theorem contents_modifyArray_of_ne {f : Array Value → Array Value} (ha : a ≠ .array r) :
    (h.modifyArray r f).contents a = h.contents a := by
  cases a with
  | array q =>
    show ((h.modifyArray r f).array q).toList = _
    rw [array_modifyArray, if_neg fun hq => ha (by rw [hq.1])]
    rfl
  | _ => rfl

theorem contents_modifyObject_of_ne {f : Dict Value → Dict Value} (ha : a ≠ .object r) :
    (h.modifyObject r f).contents a = h.contents a := by
  cases a with
  | object q =>
    show ((h.modifyObject r f).object q).values = _
    rw [object_modifyObject, if_neg fun hq => ha (by rw [hq.1])]
    rfl
  | _ => rfl

theorem cyclic_insert_iff (hh : ¬ h.Cyclic) (hr : r < h.objects.size) (key : String)
    (v : Value) : (h.modifyObject r fun d => d.insert key v).Cyclic ↔ h.Reaches v (.object r) := by
  have hcontents : (h.modifyObject r fun d => d.insert key v).contents (.object r) =
      ((h.object r).insert key v).values := by
    show Dict.values _ = _
    rw [object_modifyObject, if_pos ⟨rfl, hr⟩]
  refine cyclic_store_iff (fun _ => contents_modifyObject_of_ne) hh ?_ fun u hu => ?_
  · rw [hcontents]
    exact Dict.mem_values_of_get? (Dict.get?_insert_self _ key v)
  · rw [hcontents] at hu
    exact (Dict.mem_values_insert hu).imp_right .inr

theorem cyclic_setElement_iff {f : Array Value → Array Value} (hh : ¬ h.Cyclic)
    (hr : r < h.arrays.size) (hf : f (h.array r) = setElement (h.array r) i v) :
    (h.modifyArray r f).Cyclic ↔ h.Reaches v (.array r) := by
  have hcontents : (h.modifyArray r f).contents (.array r) =
      (setElement (h.array r) i v).toList := by
    show Array.toList _ = _
    rw [array_modifyArray, if_pos ⟨rfl, hr⟩, hf]
  refine cyclic_store_iff (fun _ => contents_modifyArray_of_ne) hh ?_ fun u hu => ?_
  · rw [hcontents]
    unfold setElement
    split
    · rename_i hi
      simp [Array.setIfInBounds, hi, List.mem_set]
    · simp
  · rw [hcontents] at hu
    exact mem_setElement hu

end Heap

/-- A value was stored: it was assigned to an element or to a field, or a function of arrays
added it or set an element to it. -/
def Stored (m : Machine) (base v : Value) (n : Machine) : Prop :=
  (∃ index, writeElement base index v m = .ok () n) ∨
    (∃ property, writeMember base property v m = .ok () n) ∨
    (∃ rest u, Library.call .array "push" (base :: v :: rest) m = .ok u n) ∨
    ∃ index rest u, Library.call .array "set" (base :: index :: v :: rest) m = .ok u n

section Assignments

variable {m n : Machine} {r : Ref} {index v u : Value} {rest : List Value}

/-- However a value is stored in an array, one element is set to it. -/
theorem Stored.setElement (h : Stored m (.array r) v n) :
    ∃ f i, n = { m with heap := m.heap.modifyArray r f } ∧
      f (m.heap.array r) = setElement (m.heap.array r) i (m.heap.current v) := by
  rcases h with ⟨index, h⟩ | ⟨property, h⟩ | ⟨rest, u, h⟩ | ⟨index, rest, u, h⟩
  · have hnumber : Exec.heap (fun h => h.number index) m = .ok (m.heap.number index) m := rfl
    have hplace : Exec.heap (fun h => h.position? index) m = .ok (m.heap.position? index) m := rfl
    replace h := ((Exec.bind_ok hnumber).trans (Exec.bind_ok hplace)).symm.trans h
    cases hi : m.heap.position? index with
    | none =>
      rw [hi] at h
      cases h
    | some i =>
      rw [hi] at h
      dsimp only at h
      split at h
      · cases h
      · cases h
        exact ⟨_, i, rfl, rfl⟩
  · cases h
  · cases h
    refine ⟨_, (m.heap.array r).size, rfl, ?_⟩
    simp [Machine.setElement, Library.arg]
  · obtain ⟨i, k, hi, h⟩ := Exec.bind_eq_ok (show (do
      let i ← Library.elementIndex "array.set" (.array r :: index :: v :: rest) 1
        (m.heap.array r).size
      let w ← Exec.heap fun h => h.current v
      Exec.modifyHeap fun h => h.modifyArray r fun a => a.setIfInBounds i w
      return Value.na) m = .ok u n from h)
    obtain ⟨x, l, hx, hi⟩ := Exec.bind_eq_ok hi
    cases hx
    split at hi
    · cases hi
    · next hbound =>
      cases hi
      cases h
      simp only [Bool.or_eq_true, decide_eq_true_eq, not_or, Nat.not_le] at hbound
      exact ⟨_, Number.toIndex (Library.num m.heap (.array r :: index :: v :: rest) 1), rfl,
        (if_pos hbound.2).symm⟩

theorem eq_of_writeElement_object (h : writeElement (.object r) index v m = .ok () n) :
    ∃ key, n =
      { m with heap := m.heap.modifyObject r fun d => d.insert key (m.heap.current v) } := by
  have hwrite : writeElement (.object r) index v m = (do
      let key ← Exec.heap? fun h => h.display? (h.current index)
      Exec.modifyHeap fun h => h.modifyObject r fun d => d.insert key (h.current v)) m := rfl
  obtain ⟨key, k, hkey, hset⟩ := Exec.bind_eq_ok (hwrite.symm.trans h)
  rw [(Exec.heap?_eq_ok hkey).2] at hset
  exact ⟨key, (EStateM.Result.ok.inj hset).2.symm⟩

/-- Storing a value in an array or an object closes a circle exactly if the value is, or
contains, what it is stored in. -/
theorem Stored.cyclic_iff (h : Stored m base v n)
    (hm : ¬ m.heap.Cyclic) (hbase : (m.heap.place? base).isSome = true) :
    n.heap.Cyclic ↔ m.heap.Reaches (m.heap.current v) base := by
  cases base with
  | array r =>
    have hr : r < m.heap.arrays.size := by
      by_contra hr
      simp [Heap.place?, hr] at hbase
    obtain ⟨f, i, rfl, hf⟩ := h.setElement
    exact Heap.cyclic_setElement_iff hm hr hf
  | object r =>
    have hr : r < m.heap.objects.size := by
      by_contra hr
      simp [Heap.place?, hr] at hbase
    rcases h with ⟨index, h⟩ | ⟨property, h⟩ | ⟨rest, u, h⟩ | ⟨index, rest, u, h⟩
    · obtain ⟨key, rfl⟩ := eq_of_writeElement_object h
      exact Heap.cyclic_insert_iff hm hr key _
    · cases h
      exact Heap.cyclic_insert_iff hm hr property _
    · cases h
    · cases h
  | _ => cases hbase

end Assignments

/-- **Texts and copies end exactly as long as nothing contains itself.** Run any script on any
candles. On every machine that the run comes to, if no array and no object contains itself,
then texts, copies and roundings of all values end; and if one does, some value has no copy.
Storing a value in an element or a field of an array or an object, on a machine where nothing
contains itself, leaves it so unless the value is, or contains, what it is stored in, and then
there is an array or an object that contains itself. -/
theorem copies_end_without_cycles (p : Program) (receiver : Json) (config : Config)
    (candles : List Candle) :
    (∃ N log, (∀ n, N ≤ n →
        Fuel.rows (· + 1) n (Indicator.ofProgram p receiver) candles
          ⟨(Indicator.ofProgram p receiver).machine config, 0⟩ =
        some (log, Ending.within 0 ((Indicator.ofProgram p receiver).rows candles
          ((Indicator.ofProgram p receiver).machine config)))) ∧
      ∀ k ∈ log, k.Meets fun m => (¬ m.heap.Cyclic → ∀ v, ¬ m.heap.Unending v) ∧
        (m.heap.Cyclic → ∃ v, m.heap.collapsed? v = none)) ∧
    ∀ {m n : Machine} {base v : Value}, ¬ m.heap.Cyclic → (m.heap.place? base).isSome = true →
      Stored m base v n → (n.heap.Cyclic ↔ m.heap.Reaches (m.heap.current v) base) := by
  refine ⟨?_, fun hm hbase h => h.cyclic_iff hm hbase⟩
  obtain ⟨N, log, hrun, -, htells⟩ :=
    Fuel.rows_ends (Regime.sound_lax config) (fun hm => hm.2) (fun _ _ => rfl)
      (Indicator.ofProgram p receiver) candles _ (Indicator.sound_machine p receiver config)
  refine ⟨N, log, hrun, fun k hk => (htells.meets k hk).imp fun m hm => ⟨?_, ?_⟩⟩
  · exact fun hcyclic v hv => hcyclic (Heap.cyclic_of_unending hm.1 hv)
  · exact Heap.exists_uncopied_of_cyclic hm.1

def selfContainedText : String :=
  "c => \x7b const a = [1]; a[0] = a; return a[0] == a \x7d"

/-- The script leaves an array that contains itself. -/
def Heap.holdsItself (h : Heap) : Bool :=
  match h.contents (.array 0) with
  | [.array r] => r == 0
  | _ => false

theorem assigned_array_contains_itself :
    ∃ p v m, parse selfContainedText = .ok p ∧ Machine.run .na p {} = .ok v m ∧ m.heap.Cyclic := by
  have h : Except.gives (fun p => Ending.gives (fun _ m => m.heap.holdsItself)
      (Machine.run .na p {})) (parse selfContainedText) = true := by
    refine gives_parse String.toList_ofList ?_
    decide +kernel
  obtain ⟨p, hp, h⟩ := Except.exists_of_gives h
  obtain ⟨v, m, hv, h⟩ := Ending.exists_of_gives h
  refine ⟨p, v, m, hp, hv, .array 0, .single ?_⟩
  unfold Heap.holdsItself at h
  split at h
  · rename_i r hcontents
    rw [hcontents, eq_of_beq h]
    exact List.mem_cons_self
  · cases h

end BarScript

import BarScript.Proofs.Correspondence
import BarScript.Proofs.Dict
import BarScript.Value.Snapshot

/-!
# Laws of the heap

What each operation of the heap does to what can be read from it, and the one
invariant that every run keeps: histories, arrays and objects hold no series,
and the fields of an object are in order. A series is therefore never more than
one step away from a value that is none, and `settle` and `current` are the
same reading.
-/

namespace BarScript

open List

/-! ## Arrays of places -/

theorem getD_push (a : Array α) (x d : α) (i : Nat) :
    (a.push x).getD i d = if i = a.size then x else a.getD i d := by
  rw [Array.getD_eq_getD_getElem?, Array.getD_eq_getD_getElem?, Array.getElem?_push]
  by_cases h : i = a.size
  · simp [h]
  · simp [h]

theorem getD_modify (a : Array α) (i j : Nat) (f : α → α) (d : α) :
    (a.modify i f).getD j d = if i = j ∧ i < a.size then f (a.getD i d) else a.getD j d := by
  rw [Array.getD_eq_getD_getElem?, Array.getD_eq_getD_getElem?, Array.getD_eq_getD_getElem?,
    Array.getElem?_modify]
  by_cases hij : i = j
  · subst hij
    by_cases hi : i < a.size
    · simp [hi]
    · simp [hi]
  · simp [hij]

namespace Heap

variable (h : Heap) (r q : Ref)

section Reading

@[simp] theorem history_newHistory (s : History Value) :
    (h.newHistory s).2.history q = if q = h.histories.size then s else h.history q :=
  getD_push h.histories s {} q

@[simp] theorem array_newArray (a : Array Value) :
    (h.newArray a).2.array q = if q = h.arrays.size then a else h.array q :=
  getD_push h.arrays a #[] q

@[simp] theorem object_newObject (d : Dict Value) :
    (h.newObject d).2.object q = if q = h.objects.size then d else h.object q :=
  getD_push h.objects d .empty q

@[simp] theorem frame_newFrame (d : Dict Value) :
    (h.newFrame d).2.frame q = if q = h.frames.size then d else h.frame q :=
  getD_push h.frames d .empty q

@[simp] theorem history_modifyHistory (f : History Value → History Value) :
    (h.modifyHistory r f).history q =
      if r = q ∧ r < h.histories.size then f (h.history r) else h.history q :=
  getD_modify h.histories r q f {}

@[simp] theorem array_modifyArray (f : Array Value → Array Value) : (h.modifyArray r f).array q =
      if r = q ∧ r < h.arrays.size then f (h.array r) else h.array q :=
  getD_modify h.arrays r q f #[]

@[simp] theorem object_modifyObject (f : Dict Value → Dict Value) : (h.modifyObject r f).object q =
      if r = q ∧ r < h.objects.size then f (h.object r) else h.object q :=
  getD_modify h.objects r q f .empty

@[simp] theorem frame_define (name : String) (v : Value) : (h.define r name v).frame q =
      if r = q ∧ r < h.frames.size then (h.frame r).insert name v else h.frame q :=
  getD_modify h.frames r q _ .empty

end Reading

/-! ## Soundness -/

/-- Histories, arrays and objects hold no series, and objects have their fields
in order. -/
structure Sound (h : Heap) : Prop where
  history : ∀ r, ∀ v ∈ (h.history r).values, ¬ v.IsSeries
  array : ∀ r, ∀ v ∈ (h.array r).toList, ¬ v.IsSeries
  object : ∀ r, ∀ v ∈ (h.object r).values, ¬ v.IsSeries
  ordered : ∀ r, (h.object r).Ordered

theorem sound_empty : Sound {} where
  history _ _ hv := nomatch hv
  array _ _ hv := nomatch hv
  object _ _ hv := nomatch hv
  ordered _ := Dict.ordered_empty

namespace Sound

variable {h} {r} (hs : h.Sound)

include hs

theorem seriesGet (offset i : Nat) : ¬ (h.seriesGet r offset i).IsSeries := by
  unfold Heap.seriesGet History.get?
  cases hv : (h.history r).values[offset + i]? with
  | none => exact id
  | some v => exact hs.history r v (mem_of_getElem? hv)

theorem current (v : Value) : ¬ (h.current v).IsSeries := by
  cases v with
  | series r offset => exact hs.seriesGet offset 0
  | _ => exact id

/-- In a sound heap a series is one step away from its value. -/
theorem settle_eq_current (v : Value) : h.settle v = h.current v := by
  cases v with
  | series r offset =>
    show h.settleWithin (h.histories.size + 1) (h.seriesGet r offset 0) = h.seriesGet r offset 0
    have hget := hs.seriesGet (r := r) offset 0
    generalize h.seriesGet r offset 0 = v at hget ⊢
    cases v with
    | series r' offset' => exact absurd trivial hget
    | _ => rfl
  | _ => rfl

theorem newHistory {s : History Value} (hv : ∀ v ∈ s.values, ¬ v.IsSeries) :
    (h.newHistory s).2.Sound := { hs with
  history q v hmem := by
    rw [history_newHistory] at hmem
    split at hmem
    · exact hv v hmem
    · exact hs.history q v hmem }

theorem newArray {a : Array Value} (hv : ∀ v ∈ a.toList, ¬ v.IsSeries) :
    (h.newArray a).2.Sound := { hs with
  array q v hmem := by
    rw [array_newArray] at hmem
    split at hmem
    · exact hv v hmem
    · exact hs.array q v hmem }

theorem newObject {d : Dict Value} (hd : d.Ordered) (hv : ∀ v ∈ d.values, ¬ v.IsSeries) :
    (h.newObject d).2.Sound := { hs with
  object q v hmem := by
    rw [object_newObject] at hmem
    split at hmem
    · exact hv v hmem
    · exact hs.object q v hmem
  ordered q := by
    rw [object_newObject]
    split
    · exact hd
    · exact hs.ordered q }

theorem newFrame (d : Dict Value) : (h.newFrame d).2.Sound where
  history := hs.history
  array := hs.array
  object := hs.object
  ordered := hs.ordered

theorem define (name : String) (v : Value) : (h.define r name v).Sound where
  history := hs.history
  array := hs.array
  object := hs.object
  ordered := hs.ordered

theorem modifyHistory {f : History Value → History Value}
    (hf : ∀ s, (∀ v ∈ s.values, ¬ v.IsSeries) → ∀ v ∈ (f s).values, ¬ v.IsSeries) :
    (h.modifyHistory r f).Sound := { hs with
  history q v hmem := by
    rw [history_modifyHistory] at hmem
    split at hmem
    · exact hf _ (hs.history r) v hmem
    · exact hs.history q v hmem }

theorem modifyArray {f : Array Value → Array Value}
    (hf : ∀ a, (∀ v ∈ a.toList, ¬ v.IsSeries) → ∀ v ∈ (f a).toList, ¬ v.IsSeries) :
    (h.modifyArray r f).Sound := { hs with
  array q v hmem := by
    rw [array_modifyArray] at hmem
    split at hmem
    · exact hf _ (hs.array r) v hmem
    · exact hs.array q v hmem }

theorem insertField {u : Value} (hu : ¬ u.IsSeries) :
    (h.modifyObject r fun d => d.insert key u).Sound := { hs with
  object q v hmem := by
    rw [object_modifyObject] at hmem
    split at hmem
    · rcases Dict.mem_values_insert hmem with rfl | hmem
      · exact hu
      · exact hs.object r v hmem
    · exact hs.object q v hmem
  ordered q := by
    rw [object_modifyObject]
    split
    · exact (hs.ordered r).insert key u
    · exact hs.ordered q }

end Sound

/-! ## What a heap keeps -/

/-- All that is kept on a heap satisfies a condition, and no series is kept in a
history, an array or an object. -/
structure Populated (P : Value → Prop) (h : Heap) : Prop where
  sound : h.Sound
  history : ∀ r, ∀ v ∈ (h.history r).values, P v
  array : ∀ r, ∀ v ∈ (h.array r).toList, P v
  object : ∀ r, ∀ v ∈ (h.object r).values, P v
  frame : ∀ r, ∀ v ∈ (h.frame r).values, P v

namespace Populated

variable {P Q : Value → Prop} {h : Heap} (hp : h.Populated P)

include hp

theorem imp (hPQ : ∀ v, P v → Q v) : h.Populated Q :=
  ⟨hp.sound, fun r v hv => hPQ v (hp.history r v hv), fun r v hv => hPQ v (hp.array r v hv),
    fun r v hv => hPQ v (hp.object r v hv), fun r v hv => hPQ v (hp.frame r v hv)⟩

theorem newHistory {s : History Value} (hs : ∀ v ∈ s.values, ¬ v.IsSeries ∧ P v) :
    (h.newHistory s).2.Populated P := { hp with
  sound := hp.sound.newHistory fun v hv => (hs v hv).1
  history q v hv := by
    rw [history_newHistory] at hv
    split at hv
    · exact (hs v hv).2
    · exact hp.history q v hv }

theorem newArray {a : Array Value} (ha : ∀ v ∈ a.toList, ¬ v.IsSeries ∧ P v) :
    (h.newArray a).2.Populated P := { hp with
  sound := hp.sound.newArray fun v hv => (ha v hv).1
  array q v hv := by
    rw [array_newArray] at hv
    split at hv
    · exact (ha v hv).2
    · exact hp.array q v hv }

theorem newObject {d : Dict Value} (hd : d.Ordered) (hv : ∀ v ∈ d.values, ¬ v.IsSeries ∧ P v) :
    (h.newObject d).2.Populated P := { hp with
  sound := hp.sound.newObject hd fun v h => (hv v h).1
  object q v hq := by
    rw [object_newObject] at hq
    split at hq
    · exact (hv v hq).2
    · exact hp.object q v hq }

theorem newFrame {d : Dict Value} (hd : ∀ v ∈ d.values, P v) :
    (h.newFrame d).2.Populated P := { hp with
  sound := hp.sound.newFrame d
  frame q v hv := by
    rw [frame_newFrame] at hv
    split at hv
    · exact hd v hv
    · exact hp.frame q v hv }

theorem modifyHistory {r : Ref} {f : History Value → History Value}
    (hf : ∀ v ∈ (f (h.history r)).values, ¬ v.IsSeries ∧ P v) :
    (h.modifyHistory r f).Populated P := by
  refine ⟨⟨fun q v hv => ?_, hp.sound.array, hp.sound.object, hp.sound.ordered⟩,
    fun q v hv => ?_, hp.array, hp.object, hp.frame⟩
  · rw [history_modifyHistory] at hv
    split at hv
    · exact (hf v hv).1
    · exact hp.sound.history q v hv
  · rw [history_modifyHistory] at hv
    split at hv
    · exact (hf v hv).2
    · exact hp.history q v hv

theorem modifyArray {r : Ref} {f : Array Value → Array Value}
    (hf : ∀ v ∈ (f (h.array r)).toList, ¬ v.IsSeries ∧ P v) : (h.modifyArray r f).Populated P := by
  refine ⟨⟨hp.sound.history, fun q v hv => ?_, hp.sound.object, hp.sound.ordered⟩, hp.history,
    fun q v hv => ?_, hp.object, hp.frame⟩
  · rw [array_modifyArray] at hv
    split at hv
    · exact (hf v hv).1
    · exact hp.sound.array q v hv
  · rw [array_modifyArray] at hv
    split at hv
    · exact (hf v hv).2
    · exact hp.array q v hv

theorem insertField {r : Ref} {v : Value} (hv : ¬ v.IsSeries) (hP : P v) :
    (h.modifyObject r fun d => d.insert key v).Populated P := { hp with
  sound := hp.sound.insertField hv
  object q u hu := by
    rw [object_modifyObject] at hu
    split at hu
    · rcases Dict.mem_values_insert hu with rfl | hu
      · exact hP
      · exact hp.object r u hu
    · exact hp.object q u hu }

theorem define {r : Ref} (hv : P v) : (h.define r name v).Populated P := { hp with
  sound := hp.sound.define name v
  frame q u hu := by
    rw [frame_define] at hu
    split at hu
    · rcases Dict.mem_values_insert hu with rfl | hu
      · exact hv
      · exact hp.frame r u hu
    · exact hp.frame q u hu }

theorem seriesGet (hna : P .na) (r : Ref) (offset i : Nat) : P (h.seriesGet r offset i) := by
  unfold Heap.seriesGet History.get?
  cases hv : (h.history r).values[offset + i]? with
  | none => exact hna
  | some v => exact hp.history r v (mem_of_getElem? hv)

theorem current (hna : P .na) (hv : P v) : P (h.current v) := by
  cases v with
  | series r offset => exact hp.seriesGet hna r offset 0
  | _ => exact hv

theorem lookup? (hx : h.lookup? ρ x = some v) : P v := by
  induction ρ with
  | nil => cases hx
  | cons q ρ ih =>
    unfold Heap.lookup? at hx
    cases hq : (h.frame q).get? x with
    | some u =>
      rw [hq] at hx
      cases hx
      exact hp.frame q v (Dict.mem_values_of_get? hq)
    | none =>
      rw [hq] at hx
      exact ih hx

end Populated

theorem populated_empty : ({} : Heap).Populated P where
  sound := sound_empty
  history _ _ hv := nomatch hv
  array _ _ hv := nomatch hv
  object _ _ hv := nomatch hv
  frame _ _ hv := nomatch hv

/-! ## Plain data -/

/-- A value that is neither a series nor a function. -/
def IsData (v : Value) : Prop :=
  ¬ v.IsSeries ∧ ∀ f ρ, v ≠ .func f ρ

mutual

/-- Plain data comes to the heap without series and functions, and leaves histories and
frames alone. -/
theorem ofJson_data (j : Json) {h : Heap} (hh : h.Populated IsData) :
    IsData (h.ofJson j).1 ∧ (h.ofJson j).2.Populated IsData ∧
      (h.ofJson j).2.histories = h.histories ∧ (h.ofJson j).2.frames = h.frames := by
  match j with
  | .null | .bool _ | .int _ | .num _ | .str _ => exact ⟨⟨id, fun _ _ h => nomatch h⟩, hh, rfl, rfl⟩
  | .arr items =>
    obtain ⟨hvs, hh, hrest⟩ := listOfJson_data items hh
    exact ⟨⟨id, fun _ _ h => nomatch h⟩, hh.newArray fun v hv => ⟨(hvs v hv).1, hvs v hv⟩, hrest⟩
  | .obj fields =>
    obtain ⟨hvs, hh, hrest⟩ := fieldsOfJson_data fields hh
    refine ⟨⟨id, fun _ _ h => nomatch h⟩,
      hh.newObject (Dict.ordered_ofList _) fun v hv => ?_, hrest⟩
    obtain ⟨p, hp, rfl⟩ := mem_map.1 (Dict.mem_values_ofList hv)
    exact ⟨(hvs p hp).1, hvs p hp⟩

theorem listOfJson_data (items : List Json) {h : Heap} (hh : h.Populated IsData) :
    (∀ v ∈ (h.listOfJson items).1, IsData v) ∧ (h.listOfJson items).2.Populated IsData ∧
      (h.listOfJson items).2.histories = h.histories ∧
      (h.listOfJson items).2.frames = h.frames := by
  match items with
  | [] => exact ⟨fun _ hv => (nomatch hv), hh, rfl, rfl⟩
  | j :: rest =>
    obtain ⟨hv, hh, hhist, hframes⟩ := ofJson_data j hh
    obtain ⟨hvs, hh, hhist', hframes'⟩ := listOfJson_data rest hh
    exact ⟨forall_mem_cons.2 ⟨hv, hvs⟩, hh, hhist'.trans hhist, hframes'.trans hframes⟩

theorem fieldsOfJson_data (fields : List (String × Json)) {h : Heap} (hh : h.Populated IsData) :
    (∀ p ∈ (h.fieldsOfJson fields).1, IsData p.2) ∧ (h.fieldsOfJson fields).2.Populated IsData ∧
      (h.fieldsOfJson fields).2.histories = h.histories ∧
      (h.fieldsOfJson fields).2.frames = h.frames := by
  match fields with
  | [] => exact ⟨fun _ hv => (nomatch hv), hh, rfl, rfl⟩
  | (_, j) :: rest =>
    obtain ⟨hv, hh, hhist, hframes⟩ := ofJson_data j hh
    obtain ⟨hvs, hh, hhist', hframes'⟩ := fieldsOfJson_data rest hh
    exact ⟨forall_mem_cons.2 ⟨hv, hvs⟩, hh, hhist'.trans hhist, hframes'.trans hframes⟩

end

end Heap

/-! ## Values of histories -/

namespace History

variable {α : Type} {s : History α} {u v : α}

theorem mem_setCurrent (h : u ∈ (s.setCurrent v).values) : u = v ∨ u ∈ s.values := by
  obtain ⟨values, capacity⟩ := s
  cases values with
  | nil => exact .inl (mem_singleton.1 h)
  | cons a l =>
    rcases mem_cons.1 h with h | h
    · exact .inl h
    · exact .inr (mem_cons_of_mem a h)

theorem mem_cut {capacity : Option Nat} {l : List α} (h : u ∈ cut capacity l) : u ∈ l := by
  cases capacity with
  | none => exact h
  | some c => exact mem_of_mem_take h

theorem mem_push (h : u ∈ (s.push v).values) : u = v ∨ u ∈ s.values :=
  mem_cons.1 (mem_cut h)

theorem mem_advance (h : u ∈ s.advance.values) : u ∈ s.values := by
  obtain ⟨values, capacity⟩ := s
  cases values with
  | nil => exact h
  | cons a l =>
    rcases mem_push h with rfl | h
    · exact mem_cons_self
    · exact h

theorem mem_withCurrent {capacity : Option Nat} (h : u ∈ (withCurrent v capacity).values) :
    u = v := by
  rcases mem_push h with h | h
  · exact h
  · cases h

theorem mem_set (h : u ∈ (s.set i v).values) : u = v ∨ u ∈ s.values :=
  (mem_or_eq_of_mem_set h).symm

end History

namespace Machine

variable {u v : Value} {i : Nat}

theorem mem_setBar (h : u ∈ (setBar s i v).values) : u = v ∨ u ∈ s.values := by
  unfold setBar at h
  split at h
  · exact History.mem_set h
  · split at h
    · exact History.mem_setCurrent h
    · exact .inr h

/-- The elements of an array with one set: the value, what fills the gap, and
those of the array. -/
theorem mem_setElement (h : u ∈ (setElement a i v).toList) : u = v ∨ u = .na ∨ u ∈ a.toList := by
  unfold setElement at h
  split at h
  · rw [Array.toList_setIfInBounds] at h
    rcases mem_or_eq_of_mem_set h with h | h
    · exact .inr (.inr h)
    · exact .inl h
  · rw [Array.toList_push, Array.toList_append, mem_append, mem_append, Array.toList_replicate] at h
    rcases h with (h | h) | h
    · exact .inr (.inr h)
    · exact .inr (.inl (eq_of_mem_replicate h))
    · exact .inl (mem_singleton.1 h)

end Machine

end BarScript

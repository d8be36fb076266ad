import BarScript.Dict
import Mathlib.Data.List.Sort
import Mathlib.Data.String.Basic

/-!
# Laws of dictionaries

A dictionary is read through `get?`, and `get?` says all there is to say about
one whose keys are in order: two such dictionaries with the same readings are
equal. Every dictionary of a run is built by `insert` from the empty one, so
its keys are in order.

Renaming the values of a dictionary goes through every operation, because no
operation looks at a value.
-/

namespace BarScript.Dict

open List

universe u v

variable {α : Type u} {β : Type v} {l : List (String × α)} {d : Dict α} {key : String} {value : α}

/-! ## Reading what was inserted -/

theorem find?_put_self (key : String) (value : α) (l : List (String × α)) :
    find? key (put key value l) = some value := by
  induction l with
  | nil => simp [put, find?]
  | cons e rest ih =>
    obtain ⟨k, w⟩ := e
    unfold put
    by_cases hk : k = key
    · simp [hk, find?]
    · by_cases hlt : key < k
      · simp [hk, hlt, find?]
      · simp [hk, hlt, find?, ih]

theorem find?_put_of_ne (h : key ≠ other) (value : α) (l : List (String × α)) :
    find? other (put key value l) = find? other l := by
  induction l with
  | nil => simp [put, find?, h]
  | cons e rest ih =>
    obtain ⟨k, w⟩ := e
    unfold put
    by_cases hk : k = key
    · subst hk
      simp [find?, h]
    · by_cases hlt : key < k
      · simp [hk, hlt, find?, h]
      · simp [hk, hlt, find?, ih]

@[simp] theorem get?_empty (key : String) : (empty : Dict α).get? key = none := rfl

@[simp] theorem get?_insert_self (d : Dict α) (key : String) (value : α) :
    (d.insert key value).get? key = some value :=
  find?_put_self key value d.entries

theorem get?_insert_of_ne (d : Dict α) (h : key ≠ other) (value : α) :
    (d.insert key value).get? other = d.get? other :=
  find?_put_of_ne h value d.entries

theorem get?_insert (d : Dict α) (key other : String) (value : α) :
    (d.insert key value).get? other = if key = other then some value else d.get? other := by
  by_cases h : key = other
  · subst h
    simp
  · rw [if_neg h, get?_insert_of_ne d h]

/-- What `insert` makes of the readings: the new value under its key, and
everything else as it was. -/
theorem get?_insert_eq_some_iff (d : Dict α) (key other : String) (value w : α) :
    (d.insert key value).get? other = some w ↔
      (key = other ∧ value = w) ∨ (key ≠ other ∧ d.get? other = some w) := by
  rw [get?_insert]
  by_cases h : key = other <;> simp [h]

theorem mem_of_find? (h : find? key l = some value) : (key, value) ∈ l := by
  induction l with
  | nil => simp [find?] at h
  | cons e rest ih =>
    obtain ⟨k, w⟩ := e
    unfold find? at h
    by_cases hk : k = key
    · simp [hk] at h
      simp [hk, h]
    · simp [hk] at h
      exact mem_cons_of_mem _ (ih h)

theorem mem_values_of_get? (h : d.get? key = some value) : value ∈ d.values :=
  mem_map_of_mem (f := Prod.snd) (mem_of_find? h)

/-! ## Keys in order -/

/-- The keys stand in ascending order, each of them once. -/
def Ordered (d : Dict α) : Prop :=
  d.keys.Pairwise (· < ·)

theorem ordered_empty : (empty : Dict α).Ordered := List.Pairwise.nil

theorem mem_map_fst_put : k ∈ (put key value l).map Prod.fst ↔ k = key ∨ k ∈ l.map Prod.fst := by
  induction l with
  | nil => simp [put]
  | cons e rest ih =>
    obtain ⟨k', w⟩ := e
    unfold put
    by_cases hk : k' = key
    · subst hk
      simp
    · by_cases hlt : key < k'
      · simp [hk, hlt]
      · simp only [beq_iff_eq, hk, ↓reduceIte, hlt, map_cons, mem_cons, ih]
        tauto

theorem pairwise_put (h : (l.map Prod.fst).Pairwise (· < ·)) :
    ((put key value l).map Prod.fst).Pairwise (· < ·) := by
  induction l with
  | nil => simp [put]
  | cons e rest ih =>
    obtain ⟨k, w⟩ := e
    rw [map_cons, pairwise_cons] at h
    unfold put
    by_cases hk : k = key
    · subst hk
      simpa using h
    · by_cases hlt : key < k
      · simp only [beq_iff_eq, hk, ↓reduceIte, hlt, map_cons, pairwise_cons,
          mem_cons, forall_eq_or_imp]
        exact ⟨⟨trivial, fun a ha => lt_trans hlt (h.1 a ha)⟩, h.1, h.2⟩
      · have hgt : k < key := lt_of_le_of_ne (not_lt.mp hlt) hk
        simp only [beq_iff_eq, hk, ↓reduceIte, hlt, map_cons, pairwise_cons]
        refine ⟨fun a ha => ?_, ih h.2⟩
        rcases mem_map_fst_put.mp ha with rfl | ha
        · exact hgt
        · exact h.1 a ha

theorem Ordered.insert (h : d.Ordered) (key : String) (value : α) : (d.insert key value).Ordered :=
  pairwise_put h

theorem find?_of_mem (h : (l.map Prod.fst).Pairwise (· < ·)) (hmem : (key, value) ∈ l) :
    find? key l = some value := by
  induction l with
  | nil => cases hmem
  | cons e rest ih =>
    rw [map_cons, pairwise_cons] at h
    rcases mem_cons.1 hmem with rfl | hmem
    · simp [find?]
    · have hk : e.1 ≠ key := ne_of_lt (h.1 key (mem_map_of_mem hmem))
      simp [find?, hk, ih h.2 hmem]

theorem eq_of_find?_eq {l' : List (String × α)} (h : (l.map Prod.fst).Pairwise (· < ·))
    (h' : (l'.map Prod.fst).Pairwise (· < ·)) (hf : ∀ k, find? k l = find? k l') : l = l' := by
  have : Std.Irrefl fun a b : String × α => a.1 < b.1 := ⟨fun a => lt_irrefl a.1⟩
  have : Std.Antisymm fun a b : String × α => a.1 < b.1 := ⟨fun a b h h' => absurd h' h.asymm⟩
  refine (pairwise_map.1 h).eq_of_mem_iff (pairwise_map.1 h') fun e => ⟨fun he => ?_, fun he => ?_⟩
  · exact mem_of_find? ((hf e.1).symm.trans (find?_of_mem h he))
  · exact mem_of_find? ((hf e.1).trans (find?_of_mem h' he))

/-- **Readings determine a dictionary** whose keys are in order. -/
theorem Ordered.ext {e : Dict α} (hd : d.Ordered) (he : e.Ordered) (h : ∀ k, d.get? k = e.get? k) :
    d = e := by
  cases d
  cases e
  exact congrArg Dict.mk (eq_of_find?_eq hd he h)

/-- Inserting what is there already changes nothing. -/
theorem Ordered.insert_of_get? (h : d.Ordered) (hv : d.get? key = some value) :
    d.insert key value = d := by
  refine (h.insert key value).ext h fun k => ?_
  rw [get?_insert]
  by_cases hk : key = k
  · subst hk
    rw [if_pos rfl, hv]
  · rw [if_neg hk]

/-! ## The values -/

theorem mem_map_snd_put (h : w ∈ (put key value l).map Prod.snd) :
    w = value ∨ w ∈ l.map Prod.snd := by
  induction l with
  | nil => simpa [put] using h
  | cons e rest ih =>
    obtain ⟨k, x⟩ := e
    unfold put at h
    by_cases hk : k = key
    · simp [hk] at h
      simp only [map_cons, mem_cons, mem_map]
      tauto
    · by_cases hlt : key < k
      · simpa [hk, hlt] using h
      · simp only [beq_iff_eq, hk, ↓reduceIte, hlt, map_cons, mem_cons] at h ⊢
        tauto

theorem mem_values_insert (h : w ∈ (d.insert key value).values) : w = value ∨ w ∈ d.values :=
  mem_map_snd_put h

theorem nodup_map_snd_put (hl : (l.map Prod.snd).Nodup) (hv : value ∉ l.map Prod.snd) :
    ((put key value l).map Prod.snd).Nodup := by
  induction l with
  | nil => simp [put]
  | cons e rest ih =>
    obtain ⟨k, x⟩ := e
    rw [map_cons, nodup_cons] at hl
    rw [map_cons, mem_cons, not_or] at hv
    unfold put
    by_cases hk : k = key
    · simp only [hk, beq_self_eq_true, ↓reduceIte, map_cons, nodup_cons]
      exact ⟨hv.2, hl.2⟩
    · by_cases hlt : key < k
      · simp only [beq_iff_eq, hk, ↓reduceIte, hlt, map_cons, nodup_cons, mem_cons, not_or]
        exact ⟨⟨hv.1, hv.2⟩, hl.1, hl.2⟩
      · simp only [beq_iff_eq, hk, ↓reduceIte, hlt, map_cons, nodup_cons]
        refine ⟨fun hx => ?_, ih hl.2 hv.2⟩
        rcases mem_map_snd_put hx with hx | hx
        · exact hv.1 hx.symm
        · exact hl.1 hx

/-- A value that is new to a dictionary without repetitions may be inserted. -/
theorem nodup_values_insert (hd : d.values.Nodup) (hv : value ∉ d.values) :
    (d.insert key value).values.Nodup :=
  nodup_map_snd_put hd hv

/-! ## Renaming values -/

theorem find?_map (f : α → β) (key : String) (l : List (String × α)) :
    find? key (l.map fun (k, v) => (k, f v)) = (find? key l).map f := by
  induction l with
  | nil => rfl
  | cons e rest ih =>
    obtain ⟨k, w⟩ := e
    by_cases hk : k = key <;> simp [find?, hk, ih]

@[simp] theorem get?_mapValues (f : α → β) (d : Dict α) (key : String) :
    (d.mapValues f).get? key = (d.get? key).map f :=
  find?_map f key d.entries

@[simp] theorem mapValues_empty (f : α → β) : (empty : Dict α).mapValues f = empty := rfl

@[simp] theorem keys_mapValues (f : α → β) (d : Dict α) : (d.mapValues f).keys = d.keys := by
  simp [keys, mapValues]

@[simp] theorem values_mapValues (f : α → β) (d : Dict α) :
    (d.mapValues f).values = d.values.map f := by
  simp [values, mapValues]

theorem Ordered.mapValues (h : d.Ordered) (f : α → β) : (d.mapValues f).Ordered := by
  unfold Ordered
  rw [keys_mapValues]
  exact h

/-- What holds of the empty dictionary and is kept by setting a key holds of the
dictionary of a list. -/
theorem ofList_induction {P : Dict α → Prop} (hempty : P empty)
    (hinsert : ∀ d, P d → ∀ p ∈ l, P (d.insert p.1 p.2)) : P (ofList l) :=
  List.foldlRecOn l _ hempty hinsert

theorem ordered_ofList (l : List (String × α)) : (ofList l).Ordered :=
  ofList_induction ordered_empty fun _ hd p _ => hd.insert p.1 p.2

theorem mem_values_ofList (h : v ∈ (ofList l).values) : v ∈ l.map Prod.snd := by
  revert h
  refine ofList_induction (P := fun d => v ∈ d.values → v ∈ l.map Prod.snd)
    (fun h => nomatch h) fun d hd p hp h => ?_
  rcases mem_values_insert h with rfl | h
  · exact mem_map_of_mem hp
  · exact hd h

/-- The dictionary of a list has the keys of the list. -/
theorem isSome_get?_ofList (hp : p ∈ l) : ((ofList l).get? p.1).isSome = true := by
  suffices h : ∀ d : Dict α, (d.get? p.1).isSome = true ∨ p ∈ l →
      ((l.foldl (fun d (k, v) => d.insert k v) d).get? p.1).isSome = true from h empty (.inr hp)
  clear hp
  induction l with
  | nil => exact fun d h => h.elim id fun h => nomatch h
  | cons e rest ih =>
    intro d h
    rw [foldl_cons]
    refine ih _ ?_
    rw [get?_insert]
    by_cases he : e.1 = p.1
    · rw [if_pos he]
      exact .inl rfl
    · rw [if_neg he]
      exact h.imp_right fun hp => (mem_cons.1 hp).resolve_left fun hpe => he (hpe ▸ rfl)

end BarScript.Dict

import BarScript.Proofs.Bars
import BarScript.Proofs.Simulation.Eval

/-!
# A machine inside a shared heap

Several contexts may be run on one heap, each in turn. What one of them has put
there then lies scattered between what the others put. `Places` says where: the
places, in the shared heap, of the histories, arrays, objects and frames that a
machine would have on a heap of its own. `Shared g P m n` says that the machine `n`
holds `m` at the places `P`, and that everything else in it is as in the heap `g`.

Running a script keeps this. The places only grow, and those added were not there
in `g`; so what other contexts hold in `g` is not touched.
-/

namespace BarScript

open Machine Correspondence List

/-! ## Cells at their places -/

/-- The cells of `own` lie in `shared` at their places, related by `R`, and all other
cells that `rest` has are in `shared` as well. -/
structure Cells {α : Type} (R : α → α → Prop) (places : List Ref) (own shared rest : Array α) :
    Prop where
  length : places.length = own.size
  nodup : places.Nodup
  cell : ∀ {i : Nat} {r : Ref}, places[i]? = some r →
    ∃ x y, own[i]? = some x ∧ shared[r]? = some y ∧ R x y
  grown : rest.size ≤ shared.size
  outside : ∀ r : Ref, r < rest.size → r ∉ places → shared[r]? = rest[r]?

namespace Cells

variable {α : Type} {R : α → α → Prop} {places : List Ref} {own shared rest : Array α}

theorem mono {R' : α → α → Prop} (h : Cells R places own shared rest)
    (hR : ∀ x y, R x y → R' x y) : Cells R' places own shared rest := { h with
  cell hi := by
    obtain ⟨x, y, hx, hy, hxy⟩ := h.cell hi
    exact ⟨x, y, hx, hy, hR x y hxy⟩ }

theorem lt (h : Cells R places own shared rest) (hr : r ∈ places) : r < shared.size := by
  obtain ⟨i, hi⟩ := mem_iff_getElem?.1 hr
  obtain ⟨-, y, -, hy, -⟩ := h.cell hi
  exact (Array.getElem?_eq_some_iff.1 hy).1

theorem size_le (h : Cells R places own shared rest) : own.size ≤ shared.size := by
  have hsub : places ⊆ List.range shared.size := fun r hr => mem_range.2 (h.lt hr)
  have hle := (h.nodup.subperm hsub).length_le
  rwa [length_range, h.length] at hle

theorem getD (h : Cells R places own shared rest) (hi : places[i]? = some r)
    (d d' : α) : R (own.getD i d) (shared.getD r d') := by
  obtain ⟨x, y, hx, hy, hxy⟩ := h.cell hi
  rwa [Array.getD_eq_getD_getElem?, Array.getD_eq_getD_getElem?, hx, hy]

theorem push (h : Cells R places own shared rest) (hxy : R x y) :
    Cells R (places ++ [shared.size]) (own.push x) (shared.push y) rest where
  length := by rw [length_append, Array.size_push, h.length]; rfl
  nodup := by
    refine nodup_append.2 ⟨h.nodup, nodup_singleton _, fun r hr s hs => ?_⟩
    rw [mem_singleton.1 hs]
    exact (h.lt hr).ne
  cell {i r} hi := by
    by_cases hlt : i < places.length
    · rw [getElem?_append_left hlt] at hi
      obtain ⟨a, b, ha, hb, hab⟩ := h.cell hi
      refine ⟨a, b, ?_, ?_, hab⟩
      · rw [Array.getElem?_push, if_neg (by rw [← h.length]; omega), ha]
      · rw [Array.getElem?_push, if_neg (h.lt (mem_of_getElem? hi)).ne, hb]
    · rw [getElem?_append_right (by omega), getElem?_singleton] at hi
      split at hi
      · cases hi
        have hi : i = own.size := by rw [← h.length]; omega
        exact ⟨x, y, by rw [hi, Array.getElem?_push_size], Array.getElem?_push_size, hxy⟩
      · cases hi
  grown := by rw [Array.size_push]; exact h.grown.trans (Nat.le_succ _)
  outside r hr hnot := by
    have hne : r ≠ shared.size := (hr.trans_le h.grown).ne
    rw [Array.getElem?_push, if_neg hne]
    exact h.outside r hr fun hmem => hnot (mem_append_left _ hmem)

theorem modify (h : Cells R places own shared rest) (hi : places[i]? = some r) {f f' : α → α}
    (hf : ∀ x y, R x y → R (f x) (f' y)) :
    Cells R places (own.modify i f) (shared.modify r f') rest where
  length := by rw [Array.size_modify, h.length]
  nodup := h.nodup
  cell {j s} hj := by
    obtain ⟨x, y, hx, hy, hxy⟩ := h.cell hj
    rw [Array.getElem?_modify, Array.getElem?_modify, hx, hy]
    by_cases hij : i = j
    · subst hij
      obtain rfl : r = s := Option.some.inj (hi.symm.trans hj)
      exact ⟨f x, f' y, by simp, by simp, hf x y hxy⟩
    · -- two cells do not lie at one place
      have hrs : r ≠ s := fun hrs => hij ((getElem?_inj
        (List.getElem?_eq_some_iff.1 hi).1 h.nodup).1 (hi.trans (hrs ▸ hj.symm)))
      exact ⟨x, y, by simp [hij], by simp [hrs], hxy⟩
  grown := by rw [Array.size_modify]; exact h.grown
  outside s hs hnot := by
    have hne : r ≠ s := fun hrs => hnot (hrs ▸ mem_of_getElem? hi)
    rw [Array.getElem?_modify, if_neg hne]
    exact h.outside s hs hnot

/-- Cells stay where they are when other cells change. -/
theorem transfer (h : Cells R places own shared rest)
    (hkeep : ∀ r ∈ places, shared'[r]? = shared[r]?) :
    Cells R places own shared' shared' := { h with
  cell hi := by
    obtain ⟨x, y, hx, hy, hxy⟩ := h.cell hi
    exact ⟨x, y, hx, (hkeep _ (mem_of_getElem? hi)).trans hy, hxy⟩
  grown := Nat.le_refl _
  outside _ _ _ := rfl }

end Cells

/-- Places that grow, the new ones beyond a bound. -/
def Grows (bound : Nat) (p p' : List Ref) : Prop :=
  ∃ new, p' = p ++ new ∧ ∀ r ∈ new, bound ≤ r

namespace Grows

variable {bound : Nat} {p p' p'' : List Ref}

theorem refl : Grows bound p p :=
  ⟨[], by simp, fun _ h => by cases h⟩

theorem trans (h : Grows bound p p') (h' : Grows bound p' p'') : Grows bound p p'' := by
  obtain ⟨new, rfl, hnew⟩ := h
  obtain ⟨new', rfl, hnew'⟩ := h'
  refine ⟨new ++ new', append_assoc _ _ _, fun r hr => ?_⟩
  exact (mem_append.1 hr).elim (hnew r) (hnew' r)

theorem one (hr : bound ≤ r) : Grows bound p (p ++ [r]) :=
  ⟨[r], rfl, fun _ h => mem_singleton.1 h ▸ hr⟩

theorem get (h : Grows bound p p') {i : Nat} {r : Ref} (hi : p[i]? = some r) :
    p'[i]? = some r := by
  obtain ⟨new, rfl, -⟩ := h
  rw [getElem?_append_left (List.getElem?_eq_some_iff.1 hi).1, hi]

theorem mem (h : Grows bound p p') (hr : r ∈ p') : r ∈ p ∨ bound ≤ r := by
  obtain ⟨new, rfl, hnew⟩ := h
  exact (mem_append.1 hr).imp id (hnew r)

end Grows

/-! ## Placed values and machines -/

/-- Where a machine lies in a shared heap. Two arrays, and two objects, are one in
the shared heap only if they are one. -/
structure Places where
  histories : List Ref := []
  arrays : List Ref := []
  objects : List Ref := []
  frames : List Ref := []
  arrays_nodup : arrays.Nodup := by simp
  objects_nodup : objects.Nodup := by simp

/-- Places that grow, the new ones beyond what a heap has. -/
structure Places.Le (g : Heap) (P P' : Places) : Prop where
  histories : Grows g.histories.size P.histories P'.histories
  arrays : Grows g.arrays.size P.arrays P'.arrays
  objects : Grows g.objects.size P.objects P'.objects
  frames : Grows g.frames.size P.frames P'.frames

theorem Places.Le.refl (P : Places) : P.Le g P :=
  ⟨.refl, .refl, .refl, .refl⟩

theorem Places.Le.trans {P : Places} (h : P.Le g P') (h' : P'.Le g P'') : P.Le g P'' :=
  ⟨h.histories.trans h'.histories, h.arrays.trans h'.arrays, h.objects.trans h'.objects,
    h.frames.trans h'.frames⟩

abbrev PlacedEnv (P : Places) : Env → Env → Prop :=
  List.Forall₂ fun r r' => P.frames[r]? = some r'

/-- A value whose references are those of another, at their places. -/
inductive Placed (P : Places) : Value → Value → Prop
  | free {v : Value} (h : v.IsFree) : Placed P v v
  | array (h : P.arrays[r]? = some r') : Placed P (.array r) (.array r')
  | object (h : P.objects[r]? = some r') : Placed P (.object r) (.object r')
  | series (h : P.histories[r]? = some r') (offset : Nat) :
    Placed P (.series r offset) (.series r' offset)
  | func (h : PlacedEnv P ρ ρ') (f : Func) : Placed P (.func f ρ) (.func f ρ')

def Kept (P : Places) (v v' : Value) : Prop :=
  Placed P v v' ∧ ¬ v.IsSeries

theorem not_isSeries_of_kept (h : List.Forall₂ (Kept P) l l') : ∀ v ∈ l, ¬ v.IsSeries := by
  induction h with
  | nil => exact fun _ hv => by cases hv
  | cons hv _ ih => exact forall_mem_cons.2 ⟨hv.2, ih⟩

/-- Histories of one capacity that hold placed values. -/
def PlacedHistory (P : Places) (s s' : History Value) : Prop :=
  s.capacity = s'.capacity ∧ List.Forall₂ (Kept P) s.values s'.values

abbrev PlacedEntries {α : Type} (R : α → α → Prop) (d d' : Dict α) : Prop :=
  List.Forall₂ (fun p q => p.1 = q.1 ∧ R p.2 q.2) d.entries d'.entries

abbrev PlacedRef (P : Places) (r r' : Ref) : Prop :=
  P.histories[r]? = some r'

/-- A context that names the places of what another names. -/
structure PlacedContext (P : Places) (c c' : Context) : Prop where
  config : c.config = c'.config
  steps : c.steps = c'.steps
  kernels : c.kernels = c'.kernels
  data : PlacedEntries (PlacedRef P) c.data c'.data
  lets : PlacedEntries (PlacedRef P) c.lets c'.lets
  consts : PlacedEntries (PlacedRef P) c.consts c'.consts
  params : PlacedEntries (PlacedRef P) c.params c'.params

/-- **A machine at its places** in a heap that is otherwise as it was. -/
structure Shared (g : Heap) (P : Places) (m n : Machine) : Prop where
  sound : m.heap.Sound
  histories : Cells (PlacedHistory P) P.histories m.heap.histories n.heap.histories g.histories
  arrays : Cells (fun a a' => List.Forall₂ (Kept P) a.toList a'.toList) P.arrays m.heap.arrays
    n.heap.arrays g.arrays
  objects : Cells (PlacedEntries (Kept P)) P.objects m.heap.objects n.heap.objects g.objects
  frames : Cells (PlacedEntries (Placed P)) P.frames m.heap.frames n.heap.frames g.frames
  context : PlacedContext P m.context n.context

theorem shared_new (config : Config) (g : Heap) :
    Shared g {} { context := { config } } { heap := g, context := { config } } := by
  have hcells : ∀ {α : Type} {R : α → α → Prop} {a : Array α}, Cells R [] #[] a a := fun {_ _ _} =>
    ⟨rfl, .nil, fun h => (by simp at h), Nat.le_refl _, fun _ _ _ => rfl⟩
  exact ⟨Heap.sound_empty, hcells, hcells, hcells, hcells, ⟨rfl, rfl, rfl, .nil, .nil, .nil, .nil⟩⟩

section Mono

variable {g : Heap} {P P' : Places} (hP : P.Le g P')

include hP

theorem PlacedEnv.mono {ρ ρ' : Env} (h : PlacedEnv P ρ ρ') : PlacedEnv P' ρ ρ' :=
  h.imp fun _ _ => hP.frames.get

theorem Placed.mono {v v' : Value} (h : Placed P v v') : Placed P' v v' := by
  cases h with
  | free h => exact .free h
  | array h => exact .array (hP.arrays.get h)
  | object h => exact .object (hP.objects.get h)
  | series h o => exact .series (hP.histories.get h) o
  | func h f => exact .func (PlacedEnv.mono hP h) f

theorem Kept.mono (h : Kept P v v') : Kept P' v v' :=
  ⟨h.1.mono hP, h.2⟩

theorem PlacedHistory.mono (h : PlacedHistory P s s') : PlacedHistory P' s s' :=
  ⟨h.1, h.2.imp fun _ _ hv => hv.mono hP⟩

theorem PlacedContext.mono {c c' : Context} (h : PlacedContext P c c') : PlacedContext P' c c' := by
  have hrefs : ∀ {d d' : Dict Ref}, PlacedEntries (PlacedRef P) d d' →
      PlacedEntries (PlacedRef P') d d' := fun hd =>
    hd.imp fun _ _ hpq => ⟨hpq.1, hP.histories.get hpq.2⟩
  exact ⟨h.config, h.steps, h.kernels, hrefs h.data, hrefs h.lets, hrefs h.consts, hrefs h.params⟩

end Mono

/-! ## Entries and histories in step -/

section Content

variable {α : Type} {R : α → α → Prop} {P : Places}

theorem PlacedEntries.keys (h : PlacedEntries R d d') : d.keys = d'.keys :=
  forall₂_eq_eq_eq ▸ forall₂_map_left_iff.2 (forall₂_map_right_iff.2 (h.imp fun _ _ h => h.1))

theorem PlacedEntries.get? (h : PlacedEntries R d d') (key : String) :
    Option.Rel R (d.get? key) (d'.get? key) :=
  forall₂_find? h key

theorem PlacedEntries.insert (h : PlacedEntries R d d') (key : String) (hv : R v v') :
    PlacedEntries R (d.insert key v) (d'.insert key v') := by
  obtain ⟨l⟩ := d
  obtain ⟨l'⟩ := d'
  show List.Forall₂ _ (Dict.put key v l) (Dict.put key v' l')
  change List.Forall₂ _ l l' at h
  induction h with
  | nil => exact .cons ⟨rfl, hv⟩ .nil
  | @cons p q l l' hpq hl ih =>
    obtain ⟨a, u⟩ := p
    obtain ⟨b, u'⟩ := q
    obtain ⟨rfl, hu⟩ := hpq
    unfold Dict.put
    by_cases hk : a = key
    · simpa [hk] using ⟨hv, hl⟩
    · by_cases hlt : key < a
      · simpa [hk, hlt] using ⟨hv, hu, hl⟩
      · simpa [hk, hlt] using ⟨hu, ih⟩

theorem PlacedEntries.ofList (h : List.Forall₂ (fun p q => p.1 = q.1 ∧ R p.2 q.2) l l') :
    PlacedEntries R (Dict.ofList l) (Dict.ofList l') := by
  have hfold : ∀ {d d' : Dict α}, PlacedEntries R d d' →
      PlacedEntries R (l.foldl (fun d (k, v) => d.insert k v) d)
        (l'.foldl (fun d (k, v) => d.insert k v) d') := by
    induction h with
    | nil => exact id
    | @cons p q l l' hpq _ ih =>
      intro d d' hd
      obtain ⟨a, v⟩ := p
      obtain ⟨b, v'⟩ := q
      obtain ⟨rfl, hv⟩ := hpq
      exact ih (hd.insert a hv)
  exact hfold .nil

theorem PlacedEntries.values (h : PlacedEntries R d d') : List.Forall₂ R d.values d'.values :=
  forall₂_map_left_iff.2 (forall₂_map_right_iff.2 (h.imp fun _ _ hpq => hpq.2))

namespace PlacedHistory

variable {s s' : History Value} {v v' : Value}

theorem setCurrent (h : PlacedHistory P s s') (hv : Kept P v v') :
    PlacedHistory P (s.setCurrent v) (s'.setCurrent v') := by
  obtain ⟨values, capacity⟩ := s
  obtain ⟨values', capacity'⟩ := s'
  obtain ⟨rfl, hvalues⟩ := h
  cases hvalues with
  | nil => exact ⟨rfl, .cons hv .nil⟩
  | cons _ hrest => exact ⟨rfl, .cons hv hrest⟩

theorem push (h : PlacedHistory P s s') (hv : Kept P v v') :
    PlacedHistory P (s.push v) (s'.push v') := by
  obtain ⟨values, capacity⟩ := s
  obtain ⟨values', capacity'⟩ := s'
  obtain ⟨rfl, hvalues⟩ := h
  refine ⟨rfl, ?_⟩
  cases capacity with
  | none => exact .cons hv hvalues
  | some c => exact forall₂_take c (.cons hv hvalues)

theorem advance (h : PlacedHistory P s s') : PlacedHistory P s.advance s'.advance := by
  obtain ⟨values, capacity⟩ := s
  obtain ⟨values', capacity'⟩ := s'
  obtain ⟨rfl, hvalues⟩ := h
  cases hvalues with
  | nil => exact ⟨rfl, .nil⟩
  | cons hv hrest => exact push ⟨rfl, .cons hv hrest⟩ hv

theorem setBar (h : PlacedHistory P s s') (i : Nat) (hv : Kept P v v') :
    PlacedHistory P (Machine.setBar s i v) (Machine.setBar s' i v') := by
  have hreach : s'.reaches i = s.reaches i := by
    unfold History.reaches
    rw [h.2.length_eq]
  unfold Machine.setBar
  rw [hreach]
  split
  · exact ⟨h.1, forall₂_set h.2 i hv⟩
  · split
    · exact h.setCurrent hv
    · exact h

end PlacedHistory

theorem placedHistory_new (capacity : Option Nat) :
    PlacedHistory P (.new capacity) (.new capacity) :=
  ⟨rfl, .nil⟩

end Content

end BarScript

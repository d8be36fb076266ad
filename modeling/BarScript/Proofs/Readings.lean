import BarScript.Proofs.Heap
import BarScript.Proofs.Nesting

/-!
# Texts, snapshots and roundings of nested values

The display of a value, its text in messages, its snapshot and its rounding all
go down through arrays and objects, and each carries a depth. Here each of them
is written as one reading through the parts of a value (`readWithin`), with the
depth apart from what is read. Since an array or an object has its parts at one
of finitely many places, a depth above the number of places changes nothing
(`Heap.reads_alike`), whatever else the heap has.
-/

namespace BarScript

open Machine

namespace Heap

variable (h : Heap)

/-! ## Places with parts -/

def contents : Value → List Value
  | .array r => (h.array r).toList
  | .object r => (h.object r).values
  | _ => []

/-- The number of places that may have parts. -/
def places : Nat :=
  h.arrays.size + h.objects.size

def place? : Value → Option (Fin h.places)
  | .array r =>
    if hr : r < h.arrays.size then some ⟨r, Nat.lt_add_right _ hr⟩ else none
  | .object r =>
    if hr : r < h.objects.size then some ⟨h.arrays.size + r, Nat.add_lt_add_left hr _⟩ else none
  | _ => none

theorem contents_eq_nil (hv : h.place? v = none) : h.contents v = [] := by
  cases v with
  | array r =>
    simp only [place?, dite_eq_right_iff, reduceCtorEq, imp_false, Nat.not_lt] at hv
    simp [contents, array, hv]
  | object r =>
    simp only [place?, dite_eq_right_iff, reduceCtorEq, imp_false, Nat.not_lt] at hv
    simp [contents, object, Dict.values, Dict.empty, hv]
  | _ => rfl

theorem place?_array_eq_some :
    h.place? (.array r) = some i ↔ i.val < h.arrays.size ∧ i.val = r := by
  rw [place?, Option.dite_none_right_eq_some]
  constructor
  · rintro ⟨hr, hi⟩
    cases hi
    exact ⟨hr, rfl⟩
  · rintro ⟨hr, hi⟩
    exact ⟨hi ▸ hr, congrArg some (Fin.ext hi.symm)⟩

theorem place?_object_eq_some : h.place? (.object r) = some i ↔
      i.val < h.places ∧ i.val = h.arrays.size + r := by
  rw [place?, Option.dite_none_right_eq_some]
  constructor
  · rintro ⟨hr, hi⟩
    cases hi
    exact ⟨Nat.add_lt_add_left hr _, rfl⟩
  · rintro ⟨hr, hi⟩
    rw [hi] at hr
    exact ⟨Nat.lt_of_add_lt_add_left hr, congrArg some (Fin.ext hi.symm)⟩

theorem eq_of_place?_eq (hu : h.place? u = some i) (hv : h.place? v = some i) : u = v := by
  cases u with
  | array r =>
    obtain ⟨hr, hi⟩ := h.place?_array_eq_some.1 hu
    cases v with
    | array r' => rw [← hi, (h.place?_array_eq_some.1 hv).2]
    | object r' =>
      have hi' := (h.place?_object_eq_some.1 hv).2
      omega
    | _ => exact nomatch hv
  | object r =>
    obtain ⟨hr, hi⟩ := h.place?_object_eq_some.1 hu
    cases v with
    | array r' =>
      obtain ⟨hr', hi'⟩ := h.place?_array_eq_some.1 hv
      omega
    | object r' =>
      have hi' := (h.place?_object_eq_some.1 hv).2
      rw [Nat.add_left_cancel (hi.symm.trans hi')]
    | _ => exact nomatch hv
  | _ => exact nomatch hu

/-- **Depth does not matter.** A reading whose parts are those of the array or
object that a value is seen as comes out the same for all depths beyond the
number of places. -/
theorem reads_alike {R : Type} {parts : Value → List Value} {out : Value → List R → R}
    {P : Value → Prop} (seen : Value → Value) (pick : Value → List Value)
    (hparts : ∀ v, P v → parts v = pick (seen v)) (hpick : ∀ v, h.contents v = [] → pick v = [])
    (hP : ∀ v, P v → ∀ u ∈ parts v, P u) (hn : h.places < n) (hk : h.places < k) (hv : P v) :
    readWithin parts out n v = readWithin parts out k v := by
  have hleaf : ∀ v, P v → h.place? (seen v) = none → parts v = [] := fun v hPv hnone => by
    rw [hparts v hPv]
    exact hpick _ (h.contents_eq_nil hnone)
  have hsame : ∀ u v, P u → P v → h.place? (seen u) = h.place? (seen v) → parts u = parts v := by
    intro u v hPu hPv heq
    cases hplace : h.place? (seen v) with
    | none => rw [hleaf u hPu (heq.trans hplace), hleaf v hPv hplace]
    | some i =>
      rw [hparts u hPu, hparts v hPv, h.eq_of_place?_eq (heq.trans hplace) hplace]
  exact readWithin_eq_of_lt hleaf hP hsame hn hk hv

/-! ## The display -/

def displayParts (v : Value) : List Value :=
  match v with
  | .array r => (h.array r).toList
  | _ => []

/-- The display of a value that is no series, from those of its parts. -/
def displayOut (v : Value) (parts : List String) : String :=
  match v with
  | .na => "NaN"
  | .number x => displayNumber x
  | .bool b => Outline.bool b
  | .str s => s
  | .array _ => ",".intercalate parts
  | w => "[" ++ w.kind ++ "]"

theorem displayWithin_eq (n : Nat) (v : Value) : h.displayWithin n v =
    readWithin (fun v => h.displayParts (h.settle v)) (fun v => displayOut (h.settle v)) n v := by
  induction n generalizing v with
  | zero => rfl
  | succ n ih =>
    rw [displayWithin, readWithin]
    cases h.settle v with
    | array r =>
      exact congrArg (Option.map (",".intercalate ·)) (mapM_congr_of_mem fun u _ => ih u)
    | _ => rfl

/-! ## The text in messages -/

/-- The text of a value in messages, from those of its parts. -/
def debugOut (v : Value) (parts : List String) : String :=
  match v with
  | .na => "na"
  | .number x => Number.Layout.message.text x
  | .bool b => Outline.bool b
  | .str s => Text.quoted s
  | .array _ => Outline.list parts
  | .object r =>
    "\x7b" ++ commaSeparated (List.zipWith (fun k text => Text.quoted k ++ ": " ++ text)
      (h.object r).keys parts) ++ "\x7d"
  | .series r offset =>
    "series(len=" ++ Nat.repr (h.seriesLength r offset) ++ ", offset=" ++ Nat.repr offset ++ ")"
  | .func f _ =>
    match f.name with
    | some id => "function " ++ id.name
    | none => "function"
  | .native ns name => ns.name ++ "." ++ name
  | .group ns => "namespace " ++ ns.name
  | .context => "context"
  | .bucket b => "bucket " ++ b.name
  | .contextFn f => "context." ++ f.label

theorem mapM_entries {R S : Type} (f : Value → Option R) (g : String → R → S)
    (l : List (String × Value)) : (l.mapM fun p => g p.1 <$> f p.2) =
      List.zipWith g (l.map Prod.fst) <$> (l.map Prod.snd).mapM f := by
  induction l with
  | nil => rfl
  | cons p l ih =>
    rw [List.mapM_cons, ih, List.map_cons, List.map_cons, List.mapM_cons]
    cases f p.2 with
    | none => rfl
    | some r =>
      cases (l.map Prod.snd).mapM f with
      | none => rfl
      | some rs => rfl

theorem debugWithin_eq (n : Nat) (v : Value) :
    h.debugWithin n v = readWithin h.contents h.debugOut n v := by
  induction n generalizing v with
  | zero => rfl
  | succ n ih =>
    cases v with
    | array r => exact congrArg (Option.map Outline.list) (mapM_congr_of_mem fun u _ => ih u)
    | object r =>
      have hentries := mapM_entries (h.debugWithin n)
        (fun k text => Text.quoted k ++ ": " ++ text) (h.object r).entries
      refine (congrArg (Option.map _) hentries).trans ?_
      rw [mapM_congr_of_mem fun u _ => ih u, Option.map_eq_map, Option.map_map]
      rfl
    | _ => rfl

/-! ## Snapshots -/

def seenAs (collapse : Bool) (v : Value) : Value :=
  if collapse then h.settle v else v

def snapshotParts (v : Value) : List Value :=
  match v with
  | .series r offset => h.seriesValues r offset
  | v => h.contents v

theorem snapshotParts_eq_contents {v : Value} (hv : ¬ v.IsSeries) :
    h.snapshotParts v = h.contents v := by
  cases v with
  | series => exact absurd trivial hv
  | _ => rfl

/-- In a sound heap what an array or an object holds is no series. -/
theorem Sound.contents {h : Heap} (hs : h.Sound) (hu : u ∈ h.contents v) : ¬ u.IsSeries := by
  cases v with
  | array r => exact hs.array r u hu
  | object r => exact hs.object r u hu
  | _ => exact nomatch hu

/-- In a sound heap a snapshot shows no series in its parts. -/
theorem Sound.snapshotParts {h : Heap} (hs : h.Sound) (hu : u ∈ h.snapshotParts v) :
    ¬ u.IsSeries := by
  by_cases hv : v.IsSeries
  · cases v with
    | series r offset => exact hs.history r u (List.mem_of_mem_drop hu)
    | _ => exact hv.elim
  · rw [h.snapshotParts_eq_contents hv] at hu
    exact hs.contents hu

/-- The snapshot of a value, from those of its parts. -/
def snapshotOut (v : Value) (parts : List Snapshot) : Snapshot :=
  match v with
  | .na => .na
  | .number x => .number x
  | .bool b => .bool b
  | .str s => .str s
  | .array _ => .array parts
  | .object r => .object (List.zipWith Prod.mk (h.object r).keys parts)
  | .series _ offset => .series parts offset
  | w => .handle (h.debugOut w [])

theorem snapshotWithin_eq (collapse : Bool) (n : Nat) (v : Value) : h.snapshotWithin collapse n v =
      readWithin (fun v => h.snapshotParts (h.seenAs collapse v))
        (fun v => h.snapshotOut (h.seenAs collapse v)) n v := by
  induction n generalizing v with
  | zero => rfl
  | succ n ih =>
    rw [snapshotWithin, readWithin]
    show _ = h.snapshotOut (h.seenAs collapse v) <$> (h.snapshotParts (h.seenAs collapse v)).mapM _
    rw [← seenAs]
    cases h.seenAs collapse v with
    | array r => exact congrArg (Option.map Snapshot.array) (mapM_congr_of_mem fun u _ => ih u)
    | series r offset =>
      exact congrArg (Option.map (Snapshot.series · offset)) (mapM_congr_of_mem fun u _ => ih u)
    | object r =>
      have hentries := mapM_entries (h.snapshotWithin collapse n) Prod.mk (h.object r).entries
      refine (congrArg (Option.map Snapshot.object) hentries).trans ?_
      rw [mapM_congr_of_mem fun u _ => ih u, Option.map_eq_map, Option.map_map]
      rfl
    | _ => rfl

end Heap

/-! ## Roundings -/

def roundedParts (h : Heap) (v : Value) : List Value :=
  match v with
  | .array r => (h.array r).toList.map h.current
  | _ => []

/-- The rounding of a value, from those of its parts. -/
def roundedOut (scale : Float) (v : Value) (parts : List Rounded) : Rounded :=
  match v with
  | .number x => .value (.number (roundBy scale x))
  | .array _ => .array parts
  | v => .value v

theorem rounded?_eq (h : Heap) (scale : Float) (n : Nat) (v : Value) :
    rounded? h scale n v = readWithin (roundedParts h) (roundedOut scale) n v := by
  induction n generalizing v with
  | zero => rfl
  | succ n ih =>
    cases v with
    | array r =>
      rw [readWithin, roundedParts, mapM_map]
      exact congrArg (Option.map Rounded.array) (mapM_congr_of_mem fun u _ => ih _)
    | _ => rfl

end BarScript

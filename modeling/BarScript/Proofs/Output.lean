import BarScript.Indicator.Output
import BarScript.Proofs.Readings

/-!
# Outputs as rows

An output is kept by columns, each as long as there are rows, and a column
comes into being with the first row that has a cell for it. What an output
shows of a list of rows is said here without reference to how it was built:
`Output.Shows`. Recording a row and appending a later output then both add
rows, and an output is determined by the rows it shows; so it makes no
difference whether rows are recorded in one go or in parts.

A row may fill each column once only. The fields of a snapshot are those of an
object of the heap, whose keys are distinct, so this holds of every bar.
-/

namespace BarScript

/-! ## Updating several keys -/

/-- Setting several distinct keys, each from what it had before. -/
theorem Dict.get?_foldl_insert {β γ : Type} (G : Option β → γ → β) (l : List (String × γ))
    (hl : (l.map Prod.fst).Nodup) (d : Dict β) (name : String) :
    (l.foldl (fun d p => d.insert p.1 (G (d.get? p.1) p.2)) d).get? name =
      match find? name l with
      | some c => some (G (d.get? name) c)
      | none => d.get? name := by
  induction l generalizing d with
  | nil => rfl
  | cons p l ih =>
    obtain ⟨k, c⟩ := p
    obtain ⟨hk, hl⟩ := List.nodup_cons.1 hl
    rw [List.foldl_cons, ih hl, find?]
    by_cases hname : k = name
    · subst hname
      have hnone : find? k l = none := Option.eq_none_iff_forall_ne_some.2 fun c hc =>
        hk (List.mem_map.2 ⟨_, mem_of_find? hc, rfl⟩)
      simp [hnone]
    · rw [get?_insert_of_ne d hname]
      simp [hname]

theorem Dict.ordered_foldl_insert {β γ : Type} (f : Dict β → String × γ → β)
    (l : List (String × γ)) {d : Dict β} (hd : d.Ordered) :
    (l.foldl (fun d p => d.insert p.1 (f d p)) d).Ordered :=
  List.foldlRecOn l _ hd fun _ he p _ => he.insert p.1 _

namespace Output

/-- A row: the timestamp of a bar and what it gave. -/
abbrev Row := Int × Snapshot

def cell? (name : String) (row : Row) : Option Json :=
  Dict.find? name (cells row.2)

/-- The cells of rows under a name, nulls where a row has none. -/
def columnOf (rows : List Row) (name : String) : Array Json :=
  (rows.map fun row => (cell? name row).getD .null).toArray

/-- The column of rows under a name, if one of them has a cell for it. -/
def column? (rows : List Row) (name : String) : Option (Array Json) :=
  if rows.any fun row => (cell? name row).isSome then some (columnOf rows name) else none

/-- What an output shows of rows: their timestamps, and under each name the
column of their cells. -/
structure Shows (o : Output) (rows : List Row) : Prop where
  timestamps : o.timestamps = (rows.map Prod.fst).toArray
  ordered : o.columns.Ordered
  column : ∀ name, o.columns.get? name = column? rows name

/-- Whether a row fills each column once only. -/
def Row.Distinct (row : Row) : Prop :=
  ((cells row.2).map Prod.fst).Nodup

theorem size_columnOf (rows : List Row) (name : String) :
    (columnOf rows name).size = rows.length := by
  simp [columnOf]

theorem columnOf_append (rows rows' : List Row) (name : String) :
    columnOf (rows ++ rows') name = columnOf rows name ++ columnOf rows' name := by
  simp [columnOf]

theorem columnOf_eq_nulls (h : column? rows name = none) :
    columnOf rows name = nulls rows.length := by
  unfold column? at h
  split at h
  · cases h
  · rename_i hany
    rw [Bool.not_eq_true, List.any_eq_false] at hany
    have hcells : (rows.map fun row => (cell? name row).getD .null) =
        List.replicate rows.length .null :=
      List.map_eq_replicate_iff.2 fun row hrow => by
        rw [Option.not_isSome_iff_eq_none.1 (hany row hrow), Option.getD_none]
    unfold columnOf nulls
    rw [hcells, List.toArray_replicate]

theorem column?_eq_some (h : column? rows name = some c) : c = columnOf rows name := by
  unfold column? at h
  split at h
  · exact (Option.some.inj h).symm
  · cases h

theorem column?_getD (rows : List Row) (name : String) :
    (column? rows name).getD (nulls rows.length) = columnOf rows name := by
  cases h : column? rows name with
  | none => exact (columnOf_eq_nulls h).symm
  | some c => exact column?_eq_some h

theorem column?_append (rows rows' : List Row) (name : String) : column? (rows ++ rows') name =
      if (column? rows name).isSome || (column? rows' name).isSome then
        some (columnOf rows name ++ columnOf rows' name) else none := by
  unfold column?
  rw [List.any_append, columnOf_append]
  cases rows.any fun row => (cell? name row).isSome <;>
    cases rows'.any fun row => (cell? name row).isSome <;> rfl

theorem pad_of_size {c : Array Json} (h : c.size = n) : pad n c = c := by
  rw [pad, h, Nat.sub_self]
  exact Array.append_empty

/-- Adding columns to those that are there, and nulls where a column ends. -/
theorem column?_merged (rows rows' : List Row) (name : String) :
    (match column? rows' name with
      | some c => some ((column? rows name).getD (nulls rows.length) ++ c)
      | none => column? rows name).map (pad (rows.length + rows'.length)) =
      column? (rows ++ rows') name := by
  rw [column?_append, column?_getD]
  have hsize : (columnOf rows name ++ columnOf rows' name).size = rows.length + rows'.length := by
    rw [Array.size_append, size_columnOf, size_columnOf]
  cases h' : column? rows' name with
  | some c =>
    rw [column?_eq_some h']
    simp [pad_of_size hsize]
  | none =>
    cases h : column? rows name with
    | none => rfl
    | some c =>
      have hpad :
          pad (rows.length + rows'.length) c = columnOf rows name ++ columnOf rows' name := by
        rw [pad, column?_eq_some h, size_columnOf, Nat.add_sub_cancel_left, columnOf_eq_nulls h']
      simp [hpad]

theorem column?_singleton (row : Row) (name : String) :
    column? [row] name = (cell? name row).map fun cell => #[cell] := by
  unfold column? columnOf
  cases h : cell? name row <;> simp [h]

namespace Shows

variable {o o' : Output} {rows rows' : List Row}

theorem length (h : o.Shows rows) : o.length = rows.length := by
  rw [Output.length, h.timestamps]
  simp

/-- **An output is determined by the rows it shows.** -/
theorem unique (h : o.Shows rows) (h' : o'.Shows rows) : o = o' := by
  obtain ⟨ts, columns⟩ := o
  obtain ⟨ts', columns'⟩ := o'
  have hts : ts = ts' := h.timestamps.trans h'.timestamps.symm
  have hcolumns : columns = columns' :=
    Dict.Ordered.ext h.ordered h'.ordered fun name => (h.column name).trans (h'.column name).symm
  rw [hts, hcolumns]

theorem empty : ({} : Output).Shows [] :=
  ⟨rfl, Dict.ordered_empty, fun _ => rfl⟩

/-- **Recording adds a row.** -/
theorem record (h : o.Shows rows) {row : Row} (hrow : row.Distinct) :
    (o.record row.1 row.2).Shows (rows ++ [row]) where
  timestamps := by simp [Output.record, h.timestamps]
  ordered := (Dict.ordered_foldl_insert _ _ h.ordered).mapValues _
  column name := by
    have hfold := Dict.get?_foldl_insert
      (fun old (cell : Json) => (old.getD (nulls o.length)).push cell) (cells row.2) hrow o.columns
      name
    refine (Dict.get?_mapValues _ _ name).trans ?_
    rw [← column?_merged, column?_singleton, ← h.column name, ← h.length]
    refine (congrArg _ hfold).trans ?_
    cases hcell : cell? name row with
    | none => rw [show Dict.find? name (cells row.2) = none from hcell]; rfl
    | some c => rw [show Dict.find? name (cells row.2) = some c from hcell]; rfl

/-- **Appending adds the rows of the later output.** -/
theorem append (h : o.Shows rows) (h' : o'.Shows rows') : (o.append o').Shows (rows ++ rows') where
  timestamps := by simp [Output.append, h.timestamps, h'.timestamps]
  ordered := (Dict.ordered_foldl_insert _ _ h.ordered).mapValues _
  column name := by
    have hfold := Dict.get?_foldl_insert
      (fun old (column : Array Json) => old.getD (nulls o.length) ++ column) o'.columns.entries
      h'.ordered.nodup o.columns name
    refine (Dict.get?_mapValues _ _ name).trans ?_
    rw [← column?_merged, ← h.column name, ← h'.column name, ← h.length, ← h'.length]
    refine (congrArg _ hfold).trans ?_
    cases hcolumn : o'.columns.get? name with
    | none => rw [show Dict.find? name o'.columns.entries = none from hcolumn]
    | some c => rw [show Dict.find? name o'.columns.entries = some c from hcolumn]

end Shows

/-! ## Rows of a run -/

theorem fieldsToJson_fst (fields : List (String × Snapshot)) :
    (Snapshot.fieldsToJson fields).map Prod.fst = fields.map Prod.fst := by
  induction fields with
  | nil => rfl
  | cons p fields ih =>
    obtain ⟨k, s⟩ := p
    rw [Snapshot.fieldsToJson, List.map_cons, List.map_cons, ih]

theorem fst_zip_sublist (keys : List String) (parts : List Snapshot) :
    ((List.zipWith Prod.mk keys parts).map Prod.fst).Sublist keys := by
  induction keys generalizing parts with
  | nil => exact .slnil
  | cons k keys ih =>
    cases parts with
    | nil => exact List.nil_sublist _
    | cons p parts => exact (ih parts).cons_cons k

/-- The snapshot of a value of a sound heap fills each column once only. -/
theorem distinct_of_collapsed? {h : Heap} (hs : h.Sound) (ts : Int)
    (hv : h.collapsed? v = some s) : Row.Distinct (ts, s) := by
  rw [Heap.collapsed?, Heap.snapshotWithin_eq] at hv
  obtain ⟨k, hk⟩ : ∃ k, h.depthBound = k + 1 := ⟨_, rfl⟩
  rw [hk] at hv
  obtain ⟨parts, -, rfl⟩ := Option.map_eq_some_iff.1 hv
  show ((cells (h.snapshotOut (h.seenAs true v) parts)).map Prod.fst).Nodup
  cases h.seenAs true v with
  | object r =>
    show ((Snapshot.fieldsToJson (List.zipWith Prod.mk (h.object r).keys parts)).map Prod.fst).Nodup
    rw [fieldsToJson_fst]
    exact (fst_zip_sublist _ parts).nodup (hs.ordered r).nodup
  | na => exact List.nodup_nil
  | _ => exact List.nodup_singleton _

end Output

end BarScript

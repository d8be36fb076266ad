import BarScript.Proofs.Fuel.Endings
import BarScript.Proofs.Incremental

/-!
# Outputs, cell by cell

An output is a table with a row per bar. Here the table is read cell by cell: what stands in
a column at a row depends on that row alone, and a column is there if a row fills it. So rows
may be recorded in one go or in parts, and a run that is broken off early leaves the first
rows of the full one.
-/

namespace BarScript

open Machine

/-! ## Cells -/

/-- What a value shows in a column: a field of an object, and any other value that is not
missing in the column `value`. -/
def Snapshot.under (name : String) : Snapshot → Option Snapshot
  | .object fields => Dict.find? name fields
  | .na => none
  | v => if name = "value" then some v else none

/-- The fields of an object are told apart by their names. -/
def Snapshot.Keyed : Snapshot → Prop
  | .object fields => (fields.map Prod.fst).Nodup
  | _ => True

namespace Output

def cellOf (name : String) (row : Row) : Json :=
  ((row.2.under name).map Snapshot.toJson).getD .null

/-- **A table of rows**: every row has its timestamp and a cell in every column, which is that
of the row, and the columns are those that a row fills, each of them once. -/
structure Tabulates (o : Output) (rows : List Row) : Prop where
  timestamps : o.timestamps.toList = rows.map Prod.fst
  cells : ∀ name column, o.columns.get? name = some column → column.toList = rows.map (cellOf name)
  columns : ∀ name, (o.columns.get? name).isSome ↔ ∃ row ∈ rows, (row.2.under name).isSome
  ordered : o.columns.Ordered

theorem find?_fieldsToJson (name : String) (fields : List (String × Snapshot)) :
    Dict.find? name (Snapshot.fieldsToJson fields) =
      (Dict.find? name fields).map Snapshot.toJson := by
  induction fields with
  | nil => rfl
  | cons p fields ih =>
    obtain ⟨k, s⟩ := p
    rw [Snapshot.fieldsToJson, Dict.find?, Dict.find?, ih]
    split <;> rfl

/-- The cells that a value fills are what it shows. -/
theorem cell?_eq (name : String) (row : Row) :
    cell? name row = (row.2.under name).map Snapshot.toJson := by
  obtain ⟨ts, v⟩ := row
  have hvalue : ∀ u : Snapshot, Dict.find? name [(valueColumn, u.toJson)] =
      (if name = "value" then some u else none).map Snapshot.toJson := by
    intro u
    by_cases h : name = "value"
    · rw [if_pos h, h]
      rfl
    · have hne : ¬ (valueColumn == name) = true := fun heq => h (eq_of_beq heq).symm
      rw [if_neg h, Dict.find?, if_neg hne]
      rfl
  cases v with
  | object fields => exact find?_fieldsToJson name fields
  | na => rfl
  | _ => exact hvalue _

theorem cellOf_eq (name : String) (row : Row) : (cell? name row).getD .null = cellOf name row := by
  rw [cell?_eq, cellOf]

theorem distinct_iff (row : Row) : row.Distinct ↔ row.2.Keyed := by
  obtain ⟨ts, v⟩ := row
  cases v with
  | object fields =>
    show ((Snapshot.fieldsToJson fields).map Prod.fst).Nodup ↔ _
    rw [fieldsToJson_fst]
    rfl
  | na => exact iff_of_true List.nodup_nil trivial
  | _ => exact iff_of_true (List.nodup_singleton _) trivial

/-- An output that shows rows is the table of them. -/
theorem Shows.tabulates {o : Output} (h : o.Shows rows) : o.Tabulates rows where
  timestamps := by rw [h.timestamps]
  cells name column hcolumn := by
    rw [h.column name] at hcolumn
    rw [column?_eq_some hcolumn, columnOf]
    exact List.map_congr_left fun row _ => cellOf_eq name row
  columns name := by
    rw [h.column name, column?, Option.isSome_ite, List.any_eq_true]
    simp only [cell?_eq, Option.isSome_map]
  ordered := h.ordered

theorem addRows_shows (hrows : ∀ row ∈ rows, row.2.Keyed) :
    (({} : Output).addRows rows).Shows rows :=
  shows_addRows .empty fun row hrow => (distinct_iff row).2 (hrows row hrow)

/-- **Recording in parts** is recording in one go. -/
theorem addRows_append (hkeyed : ∀ row ∈ xs ++ ys, row.2.Keyed) :
    (({} : Output).addRows xs).append (({} : Output).addRows ys) = ({} : Output).addRows
    (xs ++ ys) := by
  obtain ⟨hxs, hys⟩ := List.forall_mem_append.1 hkeyed
  exact ((addRows_shows hxs).append (addRows_shows hys)).unique (addRows_shows hkeyed)

end Output

/-! ## Runs over the first candles -/

namespace Indicator

variable {ind : Indicator} {config : Config} {m : Machine}

theorem rows_append (ind : Indicator) (cs ds : List Candle) :
    ind.rows (cs ++ ds) = (do
      let xs ← ind.rows cs
      let ys ← ind.rows ds
      return xs ++ ys) := by
  induction cs with
  | nil => simp only [List.nil_append, rows, pure_bind, bind_pure]
  | cons c cs ih =>
    rw [List.cons_append, rows, ih, rows]
    simp only [bind_assoc, pure_bind, List.cons_append]

/-- A bar leaves a sound machine, whether it fails or not. -/
theorem sound_bar (ind : Indicator) (hm : (Regime.sound config).inv m) (c : Candle) :
    match ind.bar c m with
    | .ok _ m' | .error _ m' => (Regime.sound config).inv m' := by
  obtain ⟨_, _, -, -, htells⟩ := @Fuel.bar_ends _ (Regime.sound_lax config) (· + 1) _
    (fun hm => hm.2) (fun _ _ => rfl) ind c m hm
  have hending := htells.ending
  revert hending
  cases ind.bar c m <;> exact And.left

/-- The rows of a run: one for each candle, with its timestamp, whose fields are told apart by
their names. -/
theorem rows_keyed (ind : Indicator) (hm : (Regime.sound config).inv m) (cs : List Candle) :
    match ind.rows cs m with
    | .ok rows m' => (Regime.sound config).inv m' ∧ rows.map Prod.fst = cs.map Candle.ts ∧
      ∀ row ∈ rows, row.2.Keyed
    | .error _ m' => (Regime.sound config).inv m' := by
  induction cs generalizing m with
  | nil => exact ⟨hm, rfl, fun _ hrow => nomatch hrow⟩
  | cons c cs ih =>
    have hbar := sound_bar ind hm c
    rw [rows]
    cases hc : ind.bar c m with
    | error e m₁ =>
      rw [hc] at hbar
      rw [Exec.bind_error hc]
      exact hbar
    | ok v m₁ =>
      rw [hc] at hbar
      have hrest := ih hbar
      rw [Exec.bind_ok hc]
      cases hcs : ind.rows cs m₁ with
      | error e m₂ =>
        rw [hcs] at hrest
        rw [Exec.bind_error hcs]
        exact hrest
      | ok rows m₂ =>
        rw [hcs] at hrest
        rw [Exec.bind_ok hcs]
        obtain ⟨hm₂, hts, hkeyed⟩ := hrest
        have hrow : Snapshot.Keyed v :=
          (Output.distinct_iff (c.ts, v)).1 (distinct_of_bar hc hbar.1)
        exact ⟨hm₂, congrArg (c.ts :: ·) hts, List.forall_mem_cons.2 ⟨hrow, hkeyed⟩⟩

theorem run_eq (ind : Indicator) (config : Config) (cs : List Candle) :
    ind.run config cs = match ind.rows cs (ind.machine config) with
      | .ok rows m => (.ok (({} : Output).addRows rows, m), { ind with heap := m.heap })
      | .error e m => (.error e, { ind with heap := m.heap }) := by
  unfold run
  rw [record_eq]
  have hmap : (Output.addRows {} <$> ind.rows cs).run (ind.machine config) =
      EStateM.map (Output.addRows {}) (ind.rows cs) (ind.machine config) := rfl
  rw [hmap]
  unfold EStateM.map
  cases ind.rows cs (ind.machine config) <;> rfl

/-- A run over more candles begins with the rows of the run over the first of them, and fails
where that one fails. -/
theorem rows_append_cases (cs ds : List Candle) (m : Machine) :
    (∃ xs m₁, ind.rows cs m = .ok xs m₁ ∧ ((∃ ys m₂, ind.rows (cs ++ ds) m = .ok (xs ++ ys) m₂) ∨
        ∃ e m₂, ind.rows (cs ++ ds) m = .error e m₂)) ∨
      ∃ e m₁, ind.rows cs m = .error e m₁ ∧ ind.rows (cs ++ ds) m = .error e m₁ := by
  rw [rows_append]
  cases hcs : ind.rows cs m with
  | error e m₁ => exact .inr ⟨e, m₁, rfl, Exec.bind_error hcs⟩
  | ok xs m₁ =>
    refine .inl ⟨xs, m₁, rfl, ?_⟩
    rw [Exec.bind_ok hcs]
    cases hds : ind.rows ds m₁ with
    | error e m₂ => exact .inr ⟨e, m₂, Exec.bind_error hds⟩
    | ok ys m₂ => exact .inl ⟨ys, m₂, Exec.bind_ok hds⟩

end Indicator

/-- **Outputs are tables of rows.** Record rows in order: every column has one cell for each
row, which is what that row shows there and null if it shows nothing, and a column is there
exactly if a row shows something there. To record rows and to append what is recorded of
later ones is to record them all. So the run of an indicator over the first candles leaves the
first rows of the run over all candles, and if it fails the full run fails as it does. The
indicator that a run leaves may be run again. -/
theorem outputs_are_tables (xs ys : List Output.Row) (hkeyed : ∀ row ∈ xs ++ ys, row.2.Keyed)
    (ind : Indicator) (hs : ind.heap.Sound) (config : Config) (cs ds : List Candle) :
    (({} : Output).addRows xs).Tabulates xs ∧
    (({} : Output).addRows xs).append (({} : Output).addRows ys) =
      ({} : Output).addRows (xs ++ ys) ∧
    (∀ o m, (ind.run config (cs ++ ds)).1 = .ok (o, m) →
      ∃ rows o' m', ind.rows (cs ++ ds) (ind.machine config) = .ok rows m ∧
        rows.map Prod.fst = (cs ++ ds).map Candle.ts ∧ o.Tabulates rows ∧
        (ind.run config cs).1 = .ok (o', m') ∧ o'.Tabulates (rows.take cs.length)) ∧
    (∀ e, (ind.run config cs).1 = .error e → (ind.run config (cs ++ ds)).1 = .error e) ∧
    (ind.run config cs).2.heap.Sound := by
  have hstart : (Regime.sound config).inv (ind.machine config) := ⟨hs, rfl⟩
  have hfirst := ind.rows_keyed hstart cs
  have hall := ind.rows_keyed hstart (cs ++ ds)
  refine ⟨(Output.addRows_shows (List.forall_mem_append.1 hkeyed).1).tabulates,
    Output.addRows_append hkeyed, ?_⟩
  rw [Indicator.run_eq, Indicator.run_eq]
  rcases Indicator.rows_append_cases cs ds (ind.machine config) with
    ⟨rows, m₁, hcs, ⟨later, m₂, hfull⟩ | ⟨e, m₂, hfull⟩⟩ | ⟨e, m₁, hcs, hfull⟩
  · rw [hcs] at hfirst ⊢
    rw [hfull] at hall ⊢
    obtain ⟨hm₁, hts, hrows⟩ := hfirst
    refine ⟨?_, fun _ h => (nomatch h), hm₁.1⟩
    rintro o m ⟨⟩
    have hlength : rows.length = cs.length := by
      simpa using congrArg List.length hts
    refine ⟨rows ++ later, _, _, rfl, hall.2.1, (Output.addRows_shows hall.2.2).tabulates, rfl, ?_⟩
    rw [← hlength, List.take_left]
    exact (Output.addRows_shows hrows).tabulates
  · rw [hcs] at hfirst ⊢
    rw [hfull]
    exact ⟨fun _ _ h => (nomatch h), fun _ h => (nomatch h), hfirst.1.1⟩
  · rw [hcs] at hfirst ⊢
    rw [hfull]
    exact ⟨fun _ _ h => (nomatch h), fun _ => id, hfirst.1⟩

/-- A script whose columns come and go: `c => { const { close } = c.data; if (close > 2) return
{ up: close }; return close > 1 ? close : null }`. -/
def flickeringText : String :=
  "c => \x7b const \x7b close \x7d = c.data; if (close > 2) return \x7b up: close \x7d; " ++
    "return close > 1 ? close : null \x7d"

set_option maxRecDepth 100000 in
theorem outputs_are_tables_flickering :
    let xs : List Output.Row := [(1, .na), (2, .number 2)]
    let ys : List Output.Row := [(3, .object [("up", .number 3)])]
    (∀ row ∈ xs ++ ys, row.2.Keyed) ∧
      (({} : Output).addRows xs).append (({} : Output).addRows ys) =
        ({} : Output).addRows (xs ++ ys) ∧
      ∃ p o m, parse flickeringText = .ok p ∧ (Indicator.ofProgram p .null).heap.Sound ∧
        ((Indicator.ofProgram p .null).run {} [.flat 1 1, .flat 2 2, .flat 3 3]).1 = .ok (o, m) ∧
        o.columns.keys = ["up", "value"] ∧
        ∃ rows o' m', o.Tabulates rows ∧ rows.map Prod.fst = [1, 2, 3] ∧
          ((Indicator.ofProgram p .null).run {} [.flat 1 1, .flat 2 2]).1 = .ok (o', m') ∧
          o'.Tabulates (rows.take 2) := by
  intro xs ys
  have hkeyed : ∀ row ∈ xs ++ ys, row.2.Keyed := by simp [xs, ys, Snapshot.Keyed]
  have h : Except.gives (fun p => Except.gives (fun r => r.1.columns.keys == ["up", "value"])
      ((Indicator.ofProgram p .null).run {} [.flat 1 1, .flat 2 2, .flat 3 3]).1)
      (parse flickeringText) = true := by
    refine gives_parse (toList_append_of String.toList_ofList String.toList_ofList) ?_
    decide +kernel
  obtain ⟨p, hp, h⟩ := Except.exists_of_gives h
  obtain ⟨⟨o, m⟩, hrun, hkeys⟩ := Except.exists_of_gives h
  have hs : (Indicator.ofProgram p .null).heap.Sound := (Indicator.sound_machine p .null {}).1
  obtain ⟨-, happend, hprefix, -⟩ :=
    outputs_are_tables xs ys hkeyed _ hs {} [.flat 1 1, .flat 2 2] [.flat 3 3]
  obtain ⟨rows, o', m', -, hts, ho, hfirst, ho'⟩ := hprefix o m hrun
  exact ⟨hkeyed, happend, p, o, m, hp, hs, hrun, eq_of_beq hkeys, rows, o', m', ho, hts, hfirst,
    ho'⟩

end BarScript

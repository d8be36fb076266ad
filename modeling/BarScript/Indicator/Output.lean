import BarScript.Value.Snapshot

/-!
# Outputs

What a run leaves behind: one row per bar, kept by columns. A bar that gives an
object fills the columns of its fields; a bar that gives another value fills
the column `value`. Where a bar gives nothing for a column there is a null, so
every column has one cell per row.
-/

namespace BarScript

/-- The rows of a run, oldest first, by columns. -/
structure Output where
  timestamps : Array Int := #[]
  columns : Dict (Array Json) := .empty

namespace Output

instance : Inhabited Output := ⟨{}⟩

def length (o : Output) : Nat :=
  o.timestamps.size

/-- The column of values that are no objects. -/
def valueColumn : String := "value"

/-- The cells that the value of a bar fills. -/
def cells : Snapshot → List (String × Json)
  | .object fields => Snapshot.fieldsToJson fields
  | .na => []
  | v => [(valueColumn, v.toJson)]

def nulls (n : Nat) : Array Json :=
  Array.replicate n .null

def pad (rows : Nat) (column : Array Json) : Array Json :=
  column ++ nulls (rows - column.size)

/-- A column among others, with nulls for `rows` rows if it is new. -/
def columnOr (columns : Dict (Array Json)) (rows : Nat) (name : String) : Array Json :=
  (columns.get? name).getD (nulls rows)

def record (o : Output) (ts : Int) (v : Snapshot) : Output :=
  let row := o.length
  let filled := (cells v).foldl
    (fun d (name, cell) => d.insert name ((columnOr d row name).push cell)) o.columns
  { timestamps := o.timestamps.push ts
    columns := filled.mapValues (pad (row + 1)) }

/-- The rows of an output, then those of a later one. -/
def append (o later : Output) : Output :=
  let filled := later.columns.entries.foldl
    (fun d (name, cells) => d.insert name (columnOr d o.length name ++ cells)) o.columns
  { timestamps := o.timestamps ++ later.timestamps
    columns := filled.mapValues (pad (o.length + later.length)) }

/-! ## Reading columns -/

def cellNumber : Json → Float
  | .num x => x
  | .int n => Float.ofInt n
  | .bool b => if b then 1.0 else 0.0
  | _ => Number.nan

def cellBool : Json → Bool
  | .bool b => b
  | _ => false

def numbers? (o : Output) (name : String) : Option (List Float) :=
  (o.columns.get? name).map fun column => column.toList.map cellNumber

def bools? (o : Output) (name : String) : Option (List Bool) :=
  (o.columns.get? name).map fun column => column.toList.map cellBool

end Output

end BarScript

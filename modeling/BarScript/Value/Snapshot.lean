import BarScript.Json.Basic
import BarScript.Value.Display

/-!
# Snapshots

What a value holds at one moment, as a tree that shares nothing with the heap.
A snapshot may keep series as what they show, or collapse them to their current
values; a step of a script gives the collapsed one, so that later bars cannot
change a result.
-/

namespace BarScript

/-- The contents of a value at one moment. -/
inductive Snapshot where
  | na
  | number (x : Float)
  | bool (b : Bool)
  | str (s : String)
  | array (items : List Snapshot)
  | object (fields : List (String × Snapshot))
  /-- The values that a view shows, newest first, and its offset. -/
  | series (values : List Snapshot) (offset : Nat)
  /-- What is neither data nor made of data, by its text. -/
  | handle (text : String)

namespace Snapshot

instance : Inhabited Snapshot := ⟨na⟩

mutual

/-- A snapshot as plain data: a missing or infinite number and a handle are
null, and a series is its current value. -/
def toJson : Snapshot → Json
  | na => .null
  | number x => if Number.isFinite x then .num x else .null
  | bool b => .bool b
  | str s => .str s
  | array items => .arr (listToJson items)
  | object fields => .obj (fieldsToJson fields)
  | series [] _ => .null
  | series (v :: _) _ => v.toJson
  | handle _ => .null

def listToJson : List Snapshot → List Json
  | [] => []
  | s :: rest => s.toJson :: listToJson rest

def fieldsToJson : List (String × Snapshot) → List (String × Json)
  | [] => []
  | (k, s) :: rest => (k, s.toJson) :: fieldsToJson rest

end

end Snapshot

namespace Heap

/-- The snapshot of a value within a depth. With `collapse` a series is its
current value, else what it shows. -/
def snapshotWithin (h : Heap) (collapse : Bool) : (depth : Nat) → Value → Option Snapshot
  | 0, _ => none
  | n + 1, v =>
    match if collapse then h.settle v else v with
    | .na => some .na
    | .number x => some (.number x)
    | .bool b => some (.bool b)
    | .str s => some (.str s)
    | .array r => .array <$> (h.array r).toList.mapM (h.snapshotWithin collapse n)
    | .object r =>
      .object <$> (h.object r).entries.mapM fun (k, w) =>
        (fun s => (k, s)) <$> h.snapshotWithin collapse n w
    | .series r offset =>
      (fun vs => .series vs offset) <$>
        (h.seriesValues r offset).mapM (h.snapshotWithin collapse n)
    | w => .handle <$> h.debugWithin (n + 1) w

/-- The snapshot of a value, with series as what they show. -/
def snapshot? (h : Heap) (v : Value) : Option Snapshot :=
  h.snapshotWithin false h.depthBound v

/-- The snapshot of a value, with series collapsed. -/
def collapsed? (h : Heap) (v : Value) : Option Snapshot :=
  h.snapshotWithin true h.depthBound v

/-! ## Values from plain data -/

mutual

/-- A value with the contents of plain data. -/
def ofJson (h : Heap) : Json → Value × Heap
  | .null => (.na, h)
  | .bool b => (.bool b, h)
  | .int n => (.number (Float.ofInt n), h)
  | .num x => (.number x, h)
  | .str s => (.str s, h)
  | .arr items =>
    let (vs, h) := h.listOfJson items
    h.newArray vs.toArray
  | .obj fields =>
    let (vs, h) := h.fieldsOfJson fields
    h.newObject (.ofList vs)

def listOfJson (h : Heap) : List Json → List Value × Heap
  | [] => ([], h)
  | j :: rest =>
    let (v, h) := h.ofJson j
    let (vs, h) := h.listOfJson rest
    (v :: vs, h)

def fieldsOfJson (h : Heap) : List (String × Json) → List (String × Value) × Heap
  | [] => ([], h)
  | (k, j) :: rest =>
    let (v, h) := h.ofJson j
    let (vs, h) := h.fieldsOfJson rest
    ((k, v) :: vs, h)

end

end Heap

end BarScript

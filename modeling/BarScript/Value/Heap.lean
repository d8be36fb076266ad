import BarScript.Dict
import BarScript.History
import BarScript.Number.Read
import BarScript.Text.CharClass
import BarScript.Value.Basic

/-!
# The heap

What values share: histories, arrays, objects, and the frames of local names.
Nothing is ever taken off the heap, so a reference once given stays good.

A series reads as the value at its offset. `Heap.current` takes that one step;
`Heap.settle` goes on until it meets a value that is no series, which is how a
value is read as a number or a truth value.
-/

namespace BarScript

/-- What values share, by reference. -/
structure Heap where
  histories : Array (History Value) := #[]
  arrays : Array (Array Value) := #[]
  objects : Array (Dict Value) := #[]
  frames : Array (Dict Value) := #[]

def maxOffset : Nat := 18446744073709551615

/-- An offset further back, up to the greatest one. -/
def shiftOffset (offset bars : Nat) : Nat :=
  min (offset + bars) maxOffset

namespace Heap

instance : Inhabited Heap := ⟨{}⟩

/-! ## Contents -/

def history (h : Heap) (r : Ref) : History Value :=
  h.histories.getD r {}

def array (h : Heap) (r : Ref) : Array Value :=
  h.arrays.getD r #[]

def object (h : Heap) (r : Ref) : Dict Value :=
  h.objects.getD r .empty

def frame (h : Heap) (r : Ref) : Dict Value :=
  h.frames.getD r .empty

/-! ## New places -/

def newHistory (h : Heap) (content : History Value) : Ref × Heap :=
  (h.histories.size, { h with histories := h.histories.push content })

def newArray (h : Heap) (items : Array Value) : Value × Heap :=
  (.array h.arrays.size, { h with arrays := h.arrays.push items })

def newObject (h : Heap) (fields : Dict Value) : Value × Heap :=
  (.object h.objects.size, { h with objects := h.objects.push fields })

def newFrame (h : Heap) (names : Dict Value) : Ref × Heap :=
  (h.frames.size, { h with frames := h.frames.push names })

/-! ## Changes -/

def modifyHistory (h : Heap) (r : Ref) (f : History Value → History Value) : Heap :=
  { h with histories := h.histories.modify r f }

def modifyArray (h : Heap) (r : Ref) (f : Array Value → Array Value) : Heap :=
  { h with arrays := h.arrays.modify r f }

def modifyObject (h : Heap) (r : Ref) (f : Dict Value → Dict Value) : Heap :=
  { h with objects := h.objects.modify r f }

def define (h : Heap) (r : Ref) (name : String) (v : Value) : Heap :=
  { h with frames := h.frames.modify r fun d => d.insert name v }

/-! ## Names -/

/-- The value of a name in the innermost frame that has it. -/
def lookup? (h : Heap) : Env → String → Option Value
  | [], _ => none
  | r :: outer, name =>
    match (h.frame r).get? name with
    | some v => some v
    | none => h.lookup? outer name

def frameOf? (h : Heap) : Env → String → Option Ref
  | [], _ => none
  | r :: outer, name =>
    match (h.frame r).get? name with
    | some _ => some r
    | none => h.frameOf? outer name

/-! ## Reading series -/

/-- The value that a view shows some bars ago. -/
def seriesGet (h : Heap) (r : Ref) (offset barsAgo : Nat) : Value :=
  ((h.history r).get? (offset + barsAgo)).getD .na

def seriesLength (h : Heap) (r : Ref) (offset : Nat) : Nat :=
  (h.history r).length - offset

/-- The values that a view shows, newest first. -/
def seriesValues (h : Heap) (r : Ref) (offset : Nat) : List Value :=
  (h.history r).values.drop offset

/-- A series as the value at its offset; any other value as it is. -/
def current (h : Heap) : Value → Value
  | .series r offset => h.seriesGet r offset 0
  | v => v

/-- Follows series for a number of steps; `na` if they do not end by then. -/
def settleWithin (h : Heap) : (steps : Nat) → Value → Value
  | 0, _ => .na
  | n + 1, .series r offset => h.settleWithin n (h.seriesGet r offset 0)
  | _ + 1, v => v

/-- Follows series to a value that is none. As many steps as there are histories
are enough unless histories show each other in a circle. -/
def settle (h : Heap) (v : Value) : Value :=
  h.settleWithin (h.histories.size + 2) v

/-! ## Readings -/

def numberOfText (s : String) : Float :=
  (Number.read? (Text.trim s.toList)).getD Number.nan

def number (h : Heap) (v : Value) : Float :=
  match h.settle v with
  | .number x => x
  | .bool b => if b then 1.0 else 0.0
  | .str s => numberOfText s
  | _ => Number.nan

def truthy (h : Heap) (v : Value) : Bool :=
  match h.settle v with
  | .na => false
  | .number x => x != 0.0 && !x.isNaN
  | .bool b => b
  | .str s => !s.isEmpty
  | _ => true

def isNa (h : Heap) (v : Value) : Bool :=
  match h.settle v with
  | .na => true
  | .number x => x.isNaN
  | _ => false

def text? (h : Heap) (v : Value) : Option String :=
  match h.current v with
  | .str s => some s
  | _ => none

/-- The place that a value counts to: finite and not negative. -/
def position? (h : Heap) (v : Value) : Option Nat :=
  let x := h.number v
  if Number.isFinite x && x ≥ 0.0 then some (Number.toIndex x) else none

/-- The bars that a value counts back; what is no positive number counts none. -/
def bars (h : Heap) (v : Value) : Nat :=
  let x := h.number v
  if Number.isFinite x && x > 0.0 then Number.toIndex x else 0

/-- The newest `length` numbers that a view shows, once there are as many. -/
def window? (h : Heap) (r : Ref) (offset length : Nat) : Option (List Float) :=
  if length == 0 || h.seriesLength r offset < length then none
  else some (((h.seriesValues r offset).take length).map h.number)

end Heap

end BarScript

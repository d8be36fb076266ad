import BarScript.Script.Outline
import BarScript.Value.Heap

/-!
# Values as text

Two forms of text. Joining a value to a string uses its display: an array is
its elements with commas between them, and what has no text of its own is the
name of its kind in brackets. Messages use a form that shows the structure.

An array may come to contain itself, and such a value has no text: the result
is `none` exactly if the nesting goes deeper than the heap has places.
-/

namespace BarScript

namespace Heap

/-- A depth that no value goes beyond unless it contains itself. -/
def depthBound (h : Heap) : Nat :=
  h.arrays.size + h.objects.size + h.histories.size + 2

/-- The display of a number; zero has no sign. -/
def displayNumber (x : Float) : String :=
  if x == 0.0 then "0" else Number.Layout.script.text x

def displayWithin (h : Heap) : (depth : Nat) → Value → Option String
  | 0, _ => none
  | n + 1, v =>
    match h.settle v with
    | .na => some "NaN"
    | .number x => some (displayNumber x)
    | .bool b => some (Outline.bool b)
    | .str s => some s
    | .array r => (fun parts => ",".intercalate parts) <$> (h.array r).toList.mapM
      (h.displayWithin n)
    | w => some ("[" ++ w.kind ++ "]")

/-- The text of a value that joins a string. -/
def display? (h : Heap) (v : Value) : Option String :=
  h.displayWithin h.depthBound v

/-- The structure of a value within a depth. -/
def debugWithin (h : Heap) : (depth : Nat) → Value → Option String
  | 0, _ => none
  | n + 1, v =>
    match v with
    | .na => some "na"
    | .number x => some (Number.Layout.message.text x)
    | .bool b => some (Outline.bool b)
    | .str s => some (Text.quoted s)
    | .array r => Outline.list <$> (h.array r).toList.mapM (h.debugWithin n)
    | .object r =>
      (fun parts => "\x7b" ++ commaSeparated parts ++ "\x7d") <$>
        (h.object r).entries.mapM fun (k, w) =>
          (fun text => Text.quoted k ++ ": " ++ text) <$> h.debugWithin n w
    | .series r offset =>
      some ("series(len=" ++ Nat.repr (h.seriesLength r offset) ++ ", offset=" ++
        Nat.repr offset ++ ")")
    | .func f _ =>
      some (match f.name with
        | some id => "function " ++ id.name
        | none => "function")
    | .native ns name => some (ns.name ++ "." ++ name)
    | .group ns => some ("namespace " ++ ns.name)
    | .context => some "context"
    | .bucket b => some ("bucket " ++ b.name)
    | .contextFn f => some ("context." ++ f.label)

def debug? (h : Heap) (v : Value) : Option String :=
  h.debugWithin h.depthBound v

end Heap

end BarScript

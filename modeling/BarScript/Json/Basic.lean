/-!
# Plain data

The values that cross the border of the library: what a caller passes as a
receiver, what a run leaves in its columns, what a stored artifact is made of.
Whole numbers and doubles are kept apart, since a count is not a measurement.
The fields of an object stand in the order of the text, and a key may repeat.
-/

namespace BarScript

/-- A plain value. -/
inductive Json where
  | null
  | bool (b : Bool)
  | int (n : Int)
  | num (x : Float)
  | str (s : String)
  | arr (items : List Json)
  | obj (fields : List (String × Json))

namespace Json

instance : Inhabited Json := ⟨null⟩

/-- The value of a key, the last one if it repeats. -/
def field? (j : Json) (key : String) : Option Json :=
  match j with
  | obj fields => (fields.reverse.find? fun f => f.1 == key).map Prod.snd
  | _ => none

/-- All values of a key, in the order of the text. -/
def fieldValues (fields : List (String × Json)) (key : String) : List Json :=
  (fields.filter fun f => f.1 == key).map Prod.snd

mutual

/-- How deep a value is nested: one more than its items or fields. -/
def depth : Json → Nat
  | arr items => listDepth items + 1
  | obj fields => fieldsDepth fields + 1
  | null | bool _ | int _ | num _ | str _ => 1

def listDepth : List Json → Nat
  | [] => 0
  | j :: rest => max j.depth (listDepth rest)

def fieldsDepth : List (String × Json) → Nat
  | [] => 0
  | (_, j) :: rest => max j.depth (fieldsDepth rest)

end

end Json

end BarScript

import BarScript.Value.Display

/-!
# Operators on values

What the operators of a script make of two values. A series counts as its
current value. Adding joins texts if either side is one; everything else is
arithmetic on numbers.
-/

namespace BarScript

namespace Heap

/-- The order of two values that a comparison asks for: texts by their
characters, else numbers. A value that is no number is in no order. -/
def compare? (h : Heap) : Value → Value → Option Ordering
  | .str a, .str b => some (if a == b then .eq else if a < b then .lt else .gt)
  | l, r =>
    let x := h.number l
    let y := h.number r
    if x < y then some .lt
    else if x == y then some .eq
    else if x > y then some .gt
    else none

/-- Equality: missing values equal each other and nothing else, shared values
equal themselves, texts are compared as texts, and the rest as numbers. -/
def looseEq (h : Heap) : Value → Value → Bool
  | .na, .na => true
  | .na, _ => false
  | _, .na => false
  | .str a, .str b => a == b
  | .array a, .array b => a == b
  | .object a, .object b => a == b
  | l, r => h.number l == h.number r

/-- How far two numbers may be apart and count as equal. -/
def tolerance : Float := 1e-8

/-- Tolerant equality of numbers. What is no number equals nothing. -/
def closeEnough (x y : Float) : Bool :=
  !x.isNaN && !y.isNaN && (x == y || (x - y).abs < tolerance)

/-- Tolerant equality: as plain equality on texts, truth values and shared
values, and within a tolerance on the rest. Missing values equal nothing. -/
def tolerantEq (h : Heap) (a b : Value) : Bool :=
  match h.current a, h.current b with
  | .str x, .str y => x == y
  | .bool x, .bool y => x == y
  | .array x, .array y => x == y
  | .object x, .object y => x == y
  | x, y => closeEnough (h.number x) (h.number y)

def join? (h : Heap) (l r : Value) : Option Value := do
  some (.str ((← h.display? l) ++ (← h.display? r)))

/-- The sum of two values that are no series: joined texts, or a number. -/
def add? (h : Heap) : Value → Value → Option Value
  | .str s, r => h.join? (.str s) r
  | l, .str s => h.join? l (.str s)
  | l, r => some (.number (h.number l + h.number r))

/-- A binary operator. `none` only if a text is asked of a value that contains
itself. -/
def binary? (h : Heap) (op : BinaryOp) (left right : Value) : Option Value :=
  let l := h.current left
  let r := h.current right
  let ordered (p : Ordering → Bool) : Option Value :=
    some (.bool (match h.compare? l r with
      | some o => p o
      | none => false))
  match op with
  | .add => h.add? l r
  | .sub => some (.number (h.number l - h.number r))
  | .mul => some (.number (h.number l * h.number r))
  | .div => some (.number (h.number l / h.number r))
  | .rem => some (.number (Number.remainder (h.number l) (h.number r)))
  | .pow => some (.number (Float.pow (h.number l) (h.number r)))
  | .lt => ordered Ordering.isLT
  | .le => ordered Ordering.isLE
  | .gt => ordered Ordering.isGT
  | .ge => ordered Ordering.isGE
  | .eq | .strictEq => some (.bool (h.looseEq l r))
  | .notEq | .strictNotEq => some (.bool (!h.looseEq l r))

def unary (h : Heap) (op : UnaryOp) (v : Value) : Value :=
  match op with
  | .not => .bool (!h.truthy v)
  | .neg => .number (-h.number v)
  | .plus => .number (h.number v)

/-- Whether a logical operator is settled by its left operand. -/
def settles (h : Heap) (op : LogicalOp) (left : Value) : Bool :=
  match op with
  | .and => !h.truthy left
  | .or => h.truthy left
  | .nullish =>
    match h.current left with
    | .na => false
    | _ => true

end Heap

end BarScript

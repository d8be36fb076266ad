import BarScript.Number.Shortest

/-!
# Numbers as text

One choice of digits serves every text; what differs is the layout. A layout
says for which scales the digits are written in place, whether a whole number
keeps its `.0`, how an exponent is marked and what the values that are not
finite are called.
-/

namespace BarScript

namespace Number

/-- How the digits of a number are laid out. A number `d.ddd * 10 ^ e` is
written in place when `inPlace e`, and with an exponent otherwise. -/
structure Layout where
  /-- The decimal exponents that are written in place. -/
  inPlace : Int → Bool
  /-- What follows the digits of a whole number written in place. -/
  wholeEnd : String
  /-- What stands before a positive exponent. -/
  plus : String
  /-- The text of positive infinity. -/
  infinity : String

/-- Numbers in messages: never an exponent, no point in whole numbers. -/
def Layout.message : Layout where
  inPlace := fun _ => true
  wholeEnd := ""
  plus := ""
  infinity := "inf"

/-- Numbers in scripts: as in messages, with infinity spelled as scripts spell
it. -/
def Layout.script : Layout where
  inPlace := fun _ => true
  wholeEnd := ""
  plus := ""
  infinity := "Infinity"

/-- Numbers in tree outlines: in place from `0.0001` up to `10 ^ 16`, always
with a point. -/
def Layout.outline : Layout where
  inPlace := fun e => -4 ≤ e && e < 16
  wholeEnd := ".0"
  plus := ""
  infinity := "inf"

/-- Numbers in data: in place from `0.00001` up to `10 ^ 16`, always with a
point, and a sign on every exponent. -/
def Layout.data : Layout where
  inPlace := fun e => -5 ≤ e && e < 16
  wholeEnd := ".0"
  plus := "+"
  infinity := "inf"

def zeros (n : Nat) : String :=
  String.ofList (List.replicate n '0')

/-- The digits written in place, the point `k` places from their left end. -/
def inPlaceText (digits : List Char) (k : Int) (wholeEnd : String) : String :=
  if k ≤ 0 then
    "0." ++ zeros (-k).toNat ++ String.ofList digits
  else if k.toNat < digits.length then
    String.ofList (digits.take k.toNat) ++ "." ++ String.ofList (digits.drop k.toNat)
  else
    String.ofList digits ++ zeros (k.toNat - digits.length) ++ wholeEnd

def exponentText (digits : List Char) (e : Int) (plus : String) : String :=
  let lead := String.ofList (digits.take 1)
  let rest := if digits.length ≤ 1 then "" else "." ++ String.ofList (digits.drop 1)
  let exponent := if 0 ≤ e then plus ++ Nat.repr e.toNat else "-" ++ Nat.repr (-e).toNat
  lead ++ rest ++ "e" ++ exponent

/-- The text of a finite number that is not negative. -/
def Layout.magnitudeText (l : Layout) (x : Float) : String :=
  if x == 0.0 then "0" ++ l.wholeEnd
  else
    let d := shortest x
    let digits := Nat.toDigits 10 d.digits
    if l.inPlace (d.point - 1) then inPlaceText digits d.point l.wholeEnd
    else exponentText digits (d.point - 1) l.plus

/-- The text of a number. A NaN has no sign; a zero keeps its own. -/
def Layout.text (l : Layout) (x : Float) : String :=
  if x.isNaN then "NaN"
  else
    let body := if x.isInf then l.infinity else l.magnitudeText x.abs
    if isNegative x then "-" ++ body else body

end Number

end BarScript

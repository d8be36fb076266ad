import BarScript.Number.Magnitude

/-!
# Numbers from text

A decimal numeral names the double nearest to it, whatever its length. The
pieces of a numeral – whole digits, fraction digits, exponent – are found
first and evaluated once, so that the script lexer and the conversion of
strings share one evaluation.
-/

namespace BarScript

namespace Number

def digitValue (c : Char) : Nat :=
  c.toNat - '0'.toNat

/-- The natural number that a list of decimal digits spells. -/
def ofDigits (ds : List Char) : Nat :=
  ds.foldl (fun n c => 10 * n + digitValue c) 0

/-- The double nearest to `whole.fraction * 10 ^ exponent`. -/
def ofNumeral (whole fraction : List Char) (exponent : Int) : Float :=
  let e := exponent - fraction.length
  Float.ofScientific (ofDigits (whole ++ fraction)) (e < 0) e.natAbs

/-- An exponent: an optional sign and at least one digit, and nothing else. -/
def readExponent? (cs : List Char) : Option Int :=
  let (negative, ds) :=
    match cs with
    | '-' :: r => (true, r)
    | '+' :: r => (false, r)
    | r => (false, r)
  if ds.isEmpty || !ds.all Char.isDigit then none
  else if negative then some (-(ofDigits ds : Int))
  else some (ofDigits ds)

/-- A numeral without a sign: digits with at most one point, at least one
digit, and an optional exponent. -/
def readNumeral? (cs : List Char) : Option Float :=
  let whole := cs.takeWhile Char.isDigit
  let rest := cs.dropWhile Char.isDigit
  let (fraction, rest) :=
    match rest with
    | '.' :: r => (r.takeWhile Char.isDigit, r.dropWhile Char.isDigit)
    | r => ([], r)
  if whole.isEmpty && fraction.isEmpty then none
  else
    match rest with
    | [] => some (ofNumeral whole fraction 0)
    | 'e' :: r => (readExponent? r).map (ofNumeral whole fraction)
    | 'E' :: r => (readExponent? r).map (ofNumeral whole fraction)
    | _ => none

/-- A number without a sign: a numeral, or a name of a value that is not
finite, in letters of either case. -/
def readUnsigned? (cs : List Char) : Option Float :=
  let name := String.ofList (cs.map Char.toLower)
  if name == "inf" || name == "infinity" then some infinity
  else if name == "nan" then some nan
  else readNumeral? cs

/-- A number: an optional sign and a number without one. -/
def read? (cs : List Char) : Option Float :=
  match cs with
  | '-' :: r => (readUnsigned? r).map (-·)
  | '+' :: r => readUnsigned? r
  | r => readUnsigned? r

end Number

end BarScript

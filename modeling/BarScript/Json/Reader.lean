import BarScript.Json.Basic
import BarScript.Number.Read

/-!
# Plain data from text

The reader follows the grammar of the format strictly: no leading zeros, no
bare controls in strings, no unpaired surrogates, nothing after the value. How
deep values may nest is a parameter, and it is what the recursion runs on; the
loops over characters, items and fields run on the size of the text.
-/

namespace BarScript.Json

/-- A reading step: a result and the text that is left. -/
abbrev Step (α : Type) := List Char → Option (α × List Char)

def skip (cs : List Char) : List Char :=
  cs.dropWhile fun c => c == ' ' || c == '\n' || c == '\t' || c == '\r'

/-! ## Strings -/

def hexValue? (c : Char) : Option Nat :=
  if c.isDigit then some (c.toNat - '0'.toNat)
  else if 'a' ≤ c && c ≤ 'f' then some (c.toNat - 'a'.toNat + 10)
  else if 'A' ≤ c && c ≤ 'F' then some (c.toNat - 'A'.toNat + 10)
  else none

def readUnit : Step Nat
  | a :: b :: c :: d :: rest => do
    let a ← hexValue? a
    let b ← hexValue? b
    let c ← hexValue? c
    let d ← hexValue? d
    some (((a * 16 + b) * 16 + c) * 16 + d, rest)
  | _ => none

/-- The character of an escape by number, the digits of which follow: one unit,
or a pair of surrogates. -/
def readEscapedUnit : Step Char := fun cs => do
  let (u, rest) ← readUnit cs
  if 0xdc00 ≤ u && u ≤ 0xdfff then none
  else if 0xd800 ≤ u && u ≤ 0xdbff then
    match rest with
    | '\\' :: 'u' :: rest => do
      let (v, rest) ← readUnit rest
      if 0xdc00 ≤ v && v ≤ 0xdfff then
        some (Char.ofNat (0x10000 + (u - 0xd800) * 0x400 + (v - 0xdc00)), rest)
      else none
    | _ => none
  else some (Char.ofNat u, rest)

def escapedLetter? (c : Char) : Option Char :=
  if c == '"' || c == '\\' || c == '/' then some c
  else if c == 'b' then some (Char.ofNat 8)
  else if c == 'f' then some (Char.ofNat 12)
  else if c == 'n' then some '\n'
  else if c == 'r' then some '\r'
  else if c == 't' then some '\t'
  else none

/-- The rest of a string whose opening quote has been read; `acc` holds its
characters in reverse. -/
def readString : (fuel : Nat) → (acc : List Char) → Step String
  | 0, _, _ => none
  | fuel + 1, acc, cs =>
    match cs with
    | [] => none
    | '"' :: rest => some (String.ofList acc.reverse, rest)
    | '\\' :: 'u' :: rest =>
      match readEscapedUnit rest with
      | some (c, rest) => readString fuel (c :: acc) rest
      | none => none
    | '\\' :: c :: rest =>
      match escapedLetter? c with
      | some c => readString fuel (c :: acc) rest
      | none => none
    | c :: rest => if c.toNat < 32 then none else readString fuel (c :: acc) rest

/-! ## Numbers -/

/-- Whether a whole number fits a machine word, with or without a sign. -/
def fitsWord (n : Int) : Bool :=
  -9223372036854775808 ≤ n && n < 18446744073709551616

/-- A number. Digits alone are a whole number if a machine word holds it; a
point, an exponent, a greater size or a negative zero make it a double. -/
def readNumber : Step Json := fun cs =>
  let (negative, cs) := match cs with
    | '-' :: r => (true, r)
    | r => (false, r)
  let whole := cs.takeWhile Char.isDigit
  let rest := cs.dropWhile Char.isDigit
  if whole.isEmpty || (whole.head? == some '0' && 1 < whole.length) then none
  else
    let (hasPoint, fraction, rest) := match rest with
      | '.' :: r => (true, r.takeWhile Char.isDigit, r.dropWhile Char.isDigit)
      | r => (false, [], r)
    if hasPoint && fraction.isEmpty then none
    else
      let (hasExponent, body) := match rest with
        | 'e' :: r => (true, r)
        | 'E' :: r => (true, r)
        | r => (false, r)
      if hasExponent then
        let (sign, body) := match body with
          | '-' :: r => ((-1 : Int), r)
          | '+' :: r => (1, r)
          | r => (1, r)
        let ds := body.takeWhile Char.isDigit
        if ds.isEmpty then none
        else
          let x := Number.ofNumeral whole fraction (sign * Number.ofDigits ds)
          some (num (Number.withSign negative x), body.dropWhile Char.isDigit)
      else
        let n : Int := Number.ofDigits whole
        let n := if negative then -n else n
        if hasPoint || !fitsWord n || (negative && n == 0) then
          some (num (Number.withSign negative (Number.ofNumeral whole fraction 0)), rest)
        else some (int n, rest)

/-! ## Values -/

/-- Items up to a closing bracket, with commas between them; at least one
follows. -/
def readItems (item : Step Json) : (fuel : Nat) → Step (List Json)
  | 0, _ => none
  | fuel + 1, cs => do
    let (j, rest) ← item cs
    match skip rest with
    | ']' :: rest => some ([j], rest)
    | ',' :: rest => do
      let (js, rest) ← readItems item fuel rest
      some (j :: js, rest)
    | _ => none

/-- Fields up to a closing brace, with commas between them; at least one
follows. -/
def readFields (size : Nat) (item : Step Json) : (fuel : Nat) → Step (List (String × Json))
  | 0, _ => none
  | fuel + 1, cs =>
    match skip cs with
    | '"' :: rest => do
      let (key, rest) ← readString size [] rest
      match skip rest with
      | ':' :: rest => do
        let (j, rest) ← item rest
        match skip rest with
        | '\x7d' :: rest => some ([(key, j)], rest)
        | ',' :: rest => do
          let (js, rest) ← readFields size item fuel rest
          some ((key, j) :: js, rest)
        | _ => none
      | _ => none
    | _ => none

/-- A value with fewer than `depth` values around its innermost one, in a text
of `size` characters. -/
def readValue (size : Nat) : (depth : Nat) → Step Json
  | 0, _ => none
  | depth + 1, cs =>
    match skip cs with
    | 'n' :: 'u' :: 'l' :: 'l' :: rest => some (null, rest)
    | 't' :: 'r' :: 'u' :: 'e' :: rest => some (bool true, rest)
    | 'f' :: 'a' :: 'l' :: 's' :: 'e' :: rest => some (bool false, rest)
    | '"' :: rest => (readString size [] rest).map fun (s, r) => (str s, r)
    | '[' :: rest =>
      match skip rest with
      | ']' :: rest => some (arr [], rest)
      | rest => (readItems (readValue size depth) size rest).map fun (js, r) => (arr js, r)
    | '\x7b' :: rest =>
      match skip rest with
      | '\x7d' :: rest => some (obj [], rest)
      | rest => (readFields size (readValue size depth) size rest).map fun (fs, r) => (obj fs, r)
    | cs => readNumber cs

/-- The value that a whole text spells, nested less than `depth` deep. -/
def read? (depth : Nat) (s : String) : Option Json :=
  match readValue (s.length + 1) depth s.toList with
  | some (j, rest) => if (skip rest).isEmpty then some j else none
  | none => none

end BarScript.Json

import BarScript.Json.Basic
import BarScript.Number.Text

/-!
# Plain data as text

Plain values are written without spaces. In a string the quote, the backslash
and the characters below the space are escaped, by letter where there is one;
everything else stands as it is. The same rule gives the string literals of
printed scripts.
-/

namespace BarScript.Json

def hexByte (n : Nat) : String :=
  let digits := Nat.toDigits 16 n
  String.ofList (List.replicate (2 - digits.length) '0' ++ digits)

/-- How one character is written inside a string. -/
def escapeChar (c : Char) : String :=
  if c == '"' then "\\\""
  else if c == '\\' then "\\\\"
  else if c.toNat == 8 then "\\b"
  else if c.toNat == 12 then "\\f"
  else if c == '\n' then "\\n"
  else if c == '\r' then "\\r"
  else if c == '\t' then "\\t"
  else if c.toNat < 32 then "\\u00" ++ hexByte c.toNat
  else c.toString

def literal (s : String) : String :=
  "\"" ++ s.toList.foldl (fun t c => t ++ escapeChar c) "" ++ "\""

/-- The text of a number; what is not finite has no number and is null. -/
def numberText (x : Float) : String :=
  if Number.isFinite x then Number.Layout.data.text x else "null"

def separated (parts : List String) : String :=
  ",".intercalate parts

mutual

def text : Json → String
  | null => "null"
  | bool b => if b then "true" else "false"
  | int n => toString n
  | num x => numberText x
  | str s => literal s
  | arr items => "[" ++ separated (itemTexts items) ++ "]"
  | obj fields => "\x7b" ++ separated (fieldTexts fields) ++ "\x7d"

def itemTexts : List Json → List String
  | [] => []
  | j :: rest => text j :: itemTexts rest

def fieldTexts : List (String × Json) → List String
  | [] => []
  | (k, j) :: rest => (literal k ++ ":" ++ text j) :: fieldTexts rest

end

end BarScript.Json

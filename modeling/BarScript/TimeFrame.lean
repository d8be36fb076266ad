import BarScript.Text.CharClass
import BarScript.Number.Read

/-!
# Timeframes

A timeframe is a count of minutes, hours, days or weeks. It is written as the
count and the letter of the unit, and `D` and `W` stand for one day and one
week. Timestamps are milliseconds, before or after the epoch.
-/

namespace BarScript

/-- A unit of bar length. -/
inductive TimeUnit where
  | minute
  | hour
  | day
  | week
deriving Repr, DecidableEq

namespace TimeUnit

def milliseconds : TimeUnit → Int
  | minute => 60000
  | hour => 3600000
  | day => 86400000
  | week => 604800000

def letter : TimeUnit → Char
  | minute => 'm'
  | hour => 'h'
  | day => 'd'
  | week => 'w'

def ofLetter? (c : Char) : Option TimeUnit :=
  if c == 'm' then some minute
  else if c == 'h' then some hour
  else if c == 'd' then some day
  else if c == 'w' then some week
  else none

end TimeUnit

/-- The length of a bar: a count of units. -/
structure TimeFrame where
  /-- How many units a bar spans. -/
  count : Nat
  /-- The unit. -/
  unit : TimeUnit
deriving Repr, DecidableEq

namespace TimeFrame

def daily : TimeFrame := ⟨1, .day⟩

def duration (tf : TimeFrame) : Int :=
  tf.count * tf.unit.milliseconds

/-- The opening time of the bar that contains `ts`; a timeframe without length
leaves the timestamp as it is. -/
def align (tf : TimeFrame) (ts : Int) : Int :=
  if tf.duration = 0 then ts else ts / tf.duration * tf.duration

def name (tf : TimeFrame) : String :=
  Nat.repr tf.count ++ tf.unit.letter.toString

/-- Why a text is not a timeframe. -/
inductive ParseError where
  /-- The trimmed text does not follow the grammar. -/
  | invalid (text : String)
  /-- The last byte of the text is not a character of its own, so no unit can be
  split off it. -/
  | severed
deriving Repr, DecidableEq

/-- The wording of an error; a severed text has none. -/
def ParseError.message : ParseError → String
  | invalid text => "invalid timeframe `" ++ text ++ "`"
  | severed => ""

def maxCount : Nat := 4294967295

/-- A count: an optional plus sign and digits, between 1 and `maxCount`. -/
def readCount? (cs : List Char) : Option Nat :=
  let ds := match cs with
    | '+' :: r => r
    | r => r
  if ds.isEmpty || !ds.all Char.isDigit then none
  else
    let n := Number.ofDigits ds
    if 1 ≤ n && n ≤ maxCount then some n else none

def ofTrimmed (cs : List Char) : Except ParseError TimeFrame :=
  if cs = ['D'] then .ok ⟨1, .day⟩
  else if cs = ['W'] then .ok ⟨1, .week⟩
  else
    match cs.getLast? with
    | none => .error (.invalid (String.ofList cs))
    | some c =>
      if 1 < c.utf8Size then .error .severed
      else
        match readCount? cs.dropLast, TimeUnit.ofLetter? c with
        | some n, some u => .ok ⟨n, u⟩
        | _, _ => .error (.invalid (String.ofList cs))

def parse (s : String) : Except ParseError TimeFrame :=
  ofTrimmed (Text.trim s.toList)

end TimeFrame

end BarScript

import BarScript.Candle

/-!
# A grid of days

A list of closes becomes one candle per day, without gaps, the last of which
contains a given moment. Each day opens at the close of the day before it.

Two things about the calendar are assumed here: it has dates for the years from -262143 to
262142, and every day has as many milliseconds as any other, so that midnights are the
multiples of a day.
-/

namespace BarScript.Feed

/-- The earliest moment with a calendar date, as assumed. -/
def earliest : Int := -8334601228800000

/-- The latest moment with a calendar date, as assumed. -/
def latest : Int := 8210266876799999

/-- Why there is no grid. -/
inductive GridError where
  /-- The end has no calendar date. -/
  | outOfRange (ts : Int)
  /-- The first day would have no calendar date. -/
  | beforeEarliest
deriving Repr, DecidableEq

/-- The wording of an error; a grid that begins too early has none. -/
def GridError.message : GridError → String
  | outOfRange ts => "timestamp " ++ toString ts ++ " is out of range"
  | beforeEarliest => ""

/-- The candle of a day that begins at a moment. -/
def day (ts : Int) (opening close : Float) : Candle where
  ts := ts
  timeframe := .daily
  opening := opening
  high := Number.maxNum opening close
  low := Number.minNum opening close
  close := close
  volume := 0.0

/-- Days from `ts` on, the first of which opens at `opening`. -/
def daysFrom (ts : Int) (opening : Float) : List Float → List Candle
  | [] => []
  | c :: rest => day ts opening c :: daysFrom (ts + TimeUnit.day.milliseconds) c rest

/-- One candle per close, the last one on the day of `endTs`. -/
def daily (endTs : Int) (closes : List Float) : Except GridError (List Candle) :=
  if endTs < earliest || latest < endTs then .error (.outOfRange endTs)
  else
    let last := TimeFrame.daily.align endTs
    let first := last - ((closes.length : Int) - 1) * TimeUnit.day.milliseconds
    match closes with
    | [] => .ok []
    | c :: _ => if first < earliest then .error .beforeEarliest else .ok (daysFrom first c closes)

end BarScript.Feed

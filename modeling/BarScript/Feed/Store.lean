import BarScript.Candle

/-!
# Stored candles

Candles are stored by symbol and timeframe. A symbol is the same in either
case of its ASCII letters. The stored series is sorted by time and has one
candle per timestamp, the one that came last.
-/

namespace BarScript.Feed

/-- What a series is stored under: the symbol, its ASCII letters in upper case,
and the name of the timeframe. -/
def seriesKey (symbol : String) (timeframe : TimeFrame) : String :=
  String.ofList (symbol.toList.map Char.toUpper) ++ "@" ++ timeframe.name

/-- Why a store does not answer. -/
inductive Error where
  | unknownSymbol (symbol : String) (timeframe : TimeFrame)
  | empty (symbol : String)
deriving Repr, DecidableEq

def Error.message : Error → String
  | unknownSymbol symbol timeframe => "no candles for " ++ symbol ++ " at " ++ timeframe.name
  | empty symbol => "series for " ++ symbol ++ " is empty"

/-- Candle series by key. -/
structure Store where
  /-- The series; of two under one key the first counts. -/
  series : List (String × List Candle) := []

/-- Of neighbours with one timestamp only the last is kept. -/
def lastPerTime : List Candle → List Candle
  | [] => []
  | [c] => [c]
  | c :: d :: rest => if c.ts = d.ts then lastPerTime (d :: rest) else c :: lastPerTime (d :: rest)

/-- Candles in order of time, one per timestamp. -/
def arrange (candles : List Candle) : List Candle :=
  lastPerTime (candles.mergeSort fun c d => decide (c.ts ≤ d.ts))

namespace Store

def get? (s : Store) (key : String) : Option (List Candle) :=
  (s.series.find? fun e => e.1 = key).map Prod.snd

/-- Replaces the series of a symbol at the timeframe of its first candle. -/
def insert (s : Store) (symbol : String) (candles : List Candle) : Except Error Store :=
  match candles with
  | [] => .error (.empty symbol)
  | first :: _ =>
    let key := seriesKey symbol first.timeframe
    .ok ⟨(key, arrange candles) :: s.series.filter fun e => !decide (e.1 = key)⟩

/-- The newest `limit` candles of a symbol, oldest first. -/
def candles (s : Store) (symbol : String) (timeframe : TimeFrame) (limit : Nat) :
    Except Error (List Candle) :=
  match s.get? (seriesKey symbol timeframe) with
  | none => .error (.unknownSymbol symbol timeframe)
  | some series => .ok (series.drop (series.length - limit))

end Store

end BarScript.Feed

import BarScript.TimeFrame

/-!
# Candles

One bar of market data.
-/

namespace BarScript

/-- One bar: when it opens, how long it is, its prices and its volume. -/
structure Candle where
  /-- The opening time, in milliseconds. -/
  ts : Int
  /-- The length of the bar. -/
  timeframe : TimeFrame
  opening : Float
  high : Float
  low : Float
  close : Float
  volume : Float

namespace Candle

/-- The last millisecond of the bar. Times are 64-bit words, so the sum wraps around. -/
def closeTs (c : Candle) : Int :=
  (c.ts + c.timeframe.duration - 1).bmod 18446744073709551616

def hl2 (c : Candle) : Float :=
  (c.high + c.low) / 2.0

def hlc3 (c : Candle) : Float :=
  (c.high + c.low + c.close) / 3.0

def ohlc4 (c : Candle) : Float :=
  (c.opening + c.high + c.low + c.close) / 4.0

end Candle

end BarScript

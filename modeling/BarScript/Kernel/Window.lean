import BarScript.Number.Magnitude

/-!
# Statistics of a window

Statistics of a list of values. An empty list and a NaN among the values give
NaN. Sums run from left to right and start from negative zero, the one number
that adds nothing to any other.
-/

namespace BarScript.Window

def total (xs : List Float) : Float :=
  xs.foldl (· + ·) (-0.0)

def size (xs : List Float) : Float :=
  Float.ofNat xs.length

def sum (xs : List Float) : Float :=
  if xs.isEmpty then Number.nan else total xs

def mean (xs : List Float) : Float :=
  if xs.isEmpty then Number.nan else total xs / size xs

/-- The mean of the squared deviations. The biased one divides by the number
of values, the other by one less. -/
def variance (xs : List Float) (biased : Bool) : Float :=
  let divisor := if biased then xs.length else xs.length - 1
  if divisor = 0 then Number.nan
  else
    let m := mean xs
    total (xs.map fun x => Number.powInt (x - m) 2) / Float.ofNat divisor

def stdev (xs : List Float) (biased : Bool) : Float :=
  (variance xs biased).sqrt

def highest (xs : List Float) : Float :=
  if xs.isEmpty || xs.any Float.isNaN then Number.nan
  else xs.foldl Number.maxNum (-Number.infinity)

def lowest (xs : List Float) : Float :=
  if xs.isEmpty || xs.any Float.isNaN then Number.nan
  else xs.foldl Number.minNum Number.infinity

/-- The weighted sum of a list and the sum of its weights: the first value
weighs `n`, and each one less than the value before it. -/
def weighted : (n : Nat) → List Float → (num den : Float) → Float × Float
  | _, [], num, den => (num, den)
  | n, x :: xs, num, den =>
    let w := Float.ofNat n
    weighted (n - 1) xs (num + x * w) (den + w)

/-- The mean in which newer values weigh more: the newest comes first and weighs
as much as there are values, the oldest weighs one. -/
def wma (xs : List Float) : Float :=
  if xs.isEmpty then Number.nan
  else
    let (num, den) := weighted xs.length xs 0.0 0.0
    num / den

end BarScript.Window

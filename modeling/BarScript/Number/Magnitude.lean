/-!
# Doubles as exact binary fractions

A finite double is a sign and a magnitude `mantissa * 2 ^ exponent` with a
natural mantissa. Everything a script does to a number that the hardware does
not offer as one rounded operation – the remainder of a division, rounding to
a whole number, the choice of the fewest digits that name a double – is exact
arithmetic on that pair, so it is done here, on naturals, and put back
together without rounding.
-/

namespace BarScript

/-- A magnitude `mantissa * 2 ^ exponent`. -/
structure Magnitude where
  /-- The natural factor. -/
  mantissa : Nat
  /-- The power of two. -/
  exponent : Int
deriving Repr, DecidableEq

namespace Number

/-- The sign bit of a double; zeros and NaNs carry one too. -/
def isNegative (x : Float) : Bool :=
  x.toBits >>> 63 == 1

/-- The exponent field of a double, still biased by 1023. -/
def biasedExponent (x : Float) : Nat :=
  ((x.toBits >>> 52) &&& 0x7ff).toNat

def fraction (x : Float) : Nat :=
  (x.toBits &&& 0xfffffffffffff).toNat

def isFinite (x : Float) : Bool :=
  biasedExponent x != 0x7ff

/-- The magnitude of a finite double. Numbers below `2 ^ -1022` have no hidden
leading bit. -/
def magnitude (x : Float) : Magnitude :=
  if biasedExponent x == 0 then ⟨fraction x, -1074⟩
  else ⟨Nat.pow 2 52 + fraction x, (biasedExponent x : Int) - 1075⟩

/-- `x` with the sign chosen by `negative`, for an `x` that is not negative. -/
def withSign (negative : Bool) (x : Float) : Float :=
  if negative then -x else x

/-- `n * 2 ^ k`, dropping binary places where `k` is negative. -/
def shift (n : Nat) (k : Int) : Nat :=
  if 0 ≤ k then n <<< k.toNat else n >>> (-k).toNat

/-- The double of a magnitude that some double has exactly: the mantissa is
moved to its 53 bits, or to the last place a double has. -/
def ofMagnitude (d : Magnitude) : Float :=
  if d.mantissa = 0 then 0.0
  else
    let k := min (52 - (d.mantissa.log2 : Int)) (d.exponent + 1074)
    let m := shift d.mantissa k
    let e := d.exponent - k
    if m < Nat.pow 2 52 then Float.ofBits m.toUInt64
    else Float.ofBits (((e + 1075).toNat <<< 52) + (m - Nat.pow 2 52)).toUInt64

/-- The remainder of a division truncated toward zero; it has the sign of the
dividend and is always exact. -/
def remainder (x y : Float) : Float :=
  if x.isNaN || y.isNaN || x.isInf || y == 0.0 then 0.0 / 0.0
  else if y.isInf || x == 0.0 then x
  else
    let a := magnitude x
    let b := magnitude y
    let e := min a.exponent b.exponent
    let r := shift a.mantissa (a.exponent - e) % shift b.mantissa (b.exponent - e)
    withSign (isNegative x) (ofMagnitude ⟨r, e⟩)

/-! ## Whole numbers -/

/-- Replaces a finite double by a whole number of the same sign: `pick m d` is
the whole number chosen for the magnitude `m / d`. -/
def toWhole (pick : Nat → Nat → Nat) (x : Float) : Float :=
  if isFinite x then
    let a := magnitude x
    if 0 ≤ a.exponent then x
    else withSign (isNegative x) (Float.ofNat (pick a.mantissa (Nat.pow 2 (-a.exponent).toNat)))
  else x

def divUp (m d : Nat) : Nat :=
  (m + (d - 1)) / d

/-- The nearest whole number, a half going away from zero. -/
def round (x : Float) : Float :=
  toWhole (fun m d => (m + d / 2) / d) x

/-- The greatest whole number that is not above `x`. -/
def floor (x : Float) : Float :=
  if isNegative x then toWhole divUp x else toWhole (· / ·) x

/-- The least whole number that is not below `x`. -/
def ceil (x : Float) : Float :=
  if isNegative x then toWhole (· / ·) x else toWhole divUp x

/-- An index: fractions are dropped, what no 64-bit word holds becomes the
nearest one that it does, and NaN becomes 0. -/
def toIndex (x : Float) : Nat :=
  x.toUInt64.toNat

/-- A whole number of 32 bits with a sign, by the same rules. -/
def toInt32 (x : Float) : Int :=
  x.toInt32.toInt

/-! ## Powers, extrema and sums -/

/-- Repeated squaring: `acc` gathers the powers whose bit is set in `n`, and
`bits` bounds the number of bits looked at. -/
def powLoop : (bits : Nat) → (acc base : Float) → (n : Nat) → Float
  | 0, acc, _, _ => acc
  | bits + 1, acc, base, n =>
    let acc := if n % 2 == 1 then acc * base else acc
    if n / 2 == 0 then acc else powLoop bits acc (base * base) (n / 2)

/-- A whole power of at most 32 bits; a negative power is the reciprocal of
the positive one. -/
def powInt (x : Float) (n : Int) : Float :=
  let r := powLoop 32 1.0 x n.natAbs
  if n < 0 then 1.0 / r else r

/-- The greater of two numbers; a NaN gives way to the other operand. -/
def maxNum (x y : Float) : Float :=
  if x.isNaN then y else if y.isNaN then x else if x < y then y else x

/-- The lesser of two numbers; a NaN gives way to the other operand. -/
def minNum (x y : Float) : Float :=
  if x.isNaN then y else if y.isNaN then x else if y < x then y else x

def nan : Float :=
  0.0 / 0.0

def infinity : Float :=
  1.0 / 0.0

end Number

end BarScript

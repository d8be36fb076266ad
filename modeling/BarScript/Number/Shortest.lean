import BarScript.Number.Magnitude

/-!
# The fewest digits that name a double

Every double owns an interval of reals: those that round to it. Its shortest
text is the decimal with the fewest digits inside that interval, and of those
the one nearest to the double.

The search goes through the decimal grids of 1, 2, … 17 digits at the scale of
the value. On each grid only the two neighbours of the value matter: if any
point of a grid lies in the interval, one of the neighbours does, because the
interval is convex and contains the value. All comparisons are between
naturals over one common denominator, so nothing is rounded on the way.
-/

namespace BarScript

/-- A decimal `0.d₁d₂…dₙ * 10 ^ point`, its digits read as one natural. -/
structure Decimal where
  /-- The digits, most significant first, as a natural number. -/
  digits : Nat
  /-- The place of the decimal point, counted from the left of the digits. -/
  point : Int
deriving Repr, DecidableEq

namespace Number

/-- The reals that round to a positive double, over one denominator: the
double itself is `value / scale`, the interval reaches from `low` to `high`,
and the ends belong to it when `closed`. -/
structure Rounding where
  low : Nat
  value : Nat
  high : Nat
  scale : Nat
  closed : Bool

/-- The interval of a positive double. Its neighbours are one unit in the last
place away, but below a power of two the gap is half as wide; a tie between
two doubles goes to the even mantissa. -/
def rounding (x : Float) : Rounding :=
  let a := magnitude x
  let narrow := fraction x == 0 && 1 < biasedExponent x
  let up := shift 1 (a.exponent - 2)
  let unit := if a.exponent < 2 then 1 else up
  { low := (4 * a.mantissa - if narrow then 1 else 2) * unit
    value := 4 * a.mantissa * unit
    high := (4 * a.mantissa + 2) * unit
    scale := if a.exponent < 2 then Nat.pow 2 (2 - a.exponent).toNat else 1
    closed := a.mantissa % 2 == 0 }

namespace Rounding

/-- Whether the decimal `c * 10 ^ e` lies in the interval. -/
def contains (r : Rounding) (c : Nat) (e : Int) : Bool :=
  let c' := if 0 ≤ e then c * Nat.pow 10 e.toNat * r.scale else c * r.scale
  let ten := if 0 ≤ e then 1 else Nat.pow 10 (-e).toNat
  if r.closed then r.low * ten ≤ c' && c' ≤ r.high * ten
  else r.low * ten < c' && c' < r.high * ten

/-- The least `k` from `k₀` on with `value < 10 ^ k`, if one of the next
`tries` is it. -/
def pointFrom (r : Rounding) : (tries : Nat) → Int → Int
  | 0, k => k
  | tries + 1, k =>
    let below :=
      if 0 ≤ k then r.value < Nat.pow 10 k.toNat * r.scale
      else r.value * Nat.pow 10 (-k).toNat < r.scale
    if below then k else pointFrom r tries (k + 1)

/-- Where the decimal point stands: the `k` with
`10 ^ (k - 1) ≤ value < 10 ^ k`. The binary length gives it up to one place,
since 1233 / 4096 is just below the logarithm of two. -/
def point (r : Rounding) : Int :=
  let bits := (r.value.log2 : Int) - (r.scale.log2 : Int) - 1
  r.pointFrom 4 (bits * 1233 / 4096)

/-- The point of the `n`-digit grid that stands for the value, if the interval
holds one: of two the nearer, and of two equally near the greater. -/
def onGrid (r : Rounding) (k : Int) (n : Nat) : Option Nat :=
  let e := k - n
  let num := if 0 ≤ e then r.value else r.value * Nat.pow 10 (-e).toNat
  let den := if 0 ≤ e then r.scale * Nat.pow 10 e.toNat else r.scale
  let below := num / den
  let rest := num % den
  let above := if rest == 0 then below else below + 1
  match r.contains below e, r.contains above e with
  | true, true => some (if 2 * rest < den then below else above)
  | true, false => some below
  | false, true => some above
  | false, false => none

/-- The first grid of at least `n` digits that has a point in the interval;
`more` further grids are tried before the last one is taken as it is. -/
def search (r : Rounding) (k : Int) : (more n : Nat) → Decimal
  | 0, n =>
    let e := k - n
    let num := if 0 ≤ e then r.value else r.value * Nat.pow 10 (-e).toNat
    let den := if 0 ≤ e then r.scale * Nat.pow 10 e.toNat else r.scale
    ⟨num / den, k⟩
  | more + 1, n =>
    match r.onGrid k n with
    | some c => if c == Nat.pow 10 n then ⟨1, k + 1⟩ else ⟨c, k⟩
    | none => search r k more (n + 1)

end Rounding

/-- The shortest decimal of a positive finite double. -/
def shortest (x : Float) : Decimal :=
  let r := rounding x
  r.search r.point 17 1

end Number

end BarScript

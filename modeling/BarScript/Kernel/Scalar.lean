import BarScript.Number.Magnitude

/-!
# Scalars

Kernels and window statistics need little of a number: the four operations,
counts as numbers, the greater of two, and a mark for a missing value. Stating
them over that interface lets the same definition run on doubles and be read
over exact rationals.
-/

namespace BarScript

/-- What kernels need of a number. -/
class Scalar (α : Type u) extends Add α, Sub α, Mul α, Div α, Neg α where
  /-- A count as a number. -/
  ofNat : Nat → α
  /-- The mark of a missing value. -/
  missing : α
  /-- Whether a value is missing. -/
  isMissing : α → Bool
  /-- Whether a value is zero. -/
  isZero : α → Bool
  /-- The greater of two values; a missing one gives way. -/
  maximum : α → α → α
  /-- The lesser of two values; a missing one gives way. -/
  minimum : α → α → α

instance : Scalar Float where
  ofNat := Float.ofNat
  missing := Number.nan
  isMissing := Float.isNaN
  isZero := fun x => x == 0.0
  maximum := Number.maxNum
  minimum := Number.minNum

end BarScript

import BarScript.Kernel.Scalar

/-!
# Moving averages fed one value per bar

An exponential average starts from the plain mean of its first `period`
values and from then on moves a fraction `alpha` of the way toward each new
value. Missing values are skipped: they repeat the last output and leave the
state as it is. The two averages of the library differ only in `alpha`.
-/

namespace BarScript

/-- Why a kernel cannot be built. -/
inductive KernelError where
  /-- The period is zero. -/
  | invalidPeriod (period : Nat)
deriving Repr, DecidableEq

def KernelError.message : KernelError → String
  | invalidPeriod period => "period must be at least 1, got " ++ Nat.repr period

/-- The state of an exponential average. -/
structure Ema (α : Type u) where
  /-- How many values seed the average. -/
  period : Nat
  /-- The weight of a new value. -/
  alpha : α
  /-- The sum of the values seen before the average is seeded. -/
  seedSum : α
  /-- How many values have been seen before the average was seeded. -/
  count : Nat
  /-- The average, once seeded. -/
  value : Option α

namespace Ema

variable {α : Type u} [Scalar α]

def withAlpha (period : Nat) (alpha : α) : Except KernelError (Ema α) :=
  if period = 0 then .error (.invalidPeriod period)
  else .ok ⟨period, alpha, Scalar.ofNat 0, 0, none⟩

/-- The exponential average: a new value weighs `2 / (period + 1)`. -/
def new (period : Nat) : Except KernelError (Ema α) :=
  withAlpha period (Scalar.ofNat 2 / (Scalar.ofNat period + Scalar.ofNat 1))

/-- The running average: a new value weighs `1 / period`. -/
def running (period : Nat) : Except KernelError (Ema α) :=
  withAlpha period (Scalar.ofNat 1 / Scalar.ofNat period)

def next (k : Ema α) (v : α) : α × Ema α :=
  if Scalar.isMissing v then (k.value.getD Scalar.missing, k)
  else
    match k.value with
    | some prev =>
      let out := k.alpha * v + (Scalar.ofNat 1 - k.alpha) * prev
      (out, { k with value := some out })
    | none =>
      let k := { k with count := k.count + 1, seedSum := k.seedSum + v }
      if k.count < k.period then (Scalar.missing, k)
      else
        let out := k.seedSum / Scalar.ofNat k.period
        (out, { k with value := some out })

end Ema

end BarScript

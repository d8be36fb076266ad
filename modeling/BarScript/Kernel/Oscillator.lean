import BarScript.Kernel.Average

/-!
# Oscillators and totals

Kernels built from averages: the relative strength of gains against losses,
the difference of a fast and a slow average with its own signal line, and a
running total.
-/

namespace BarScript

/-- The state of the relative strength index. -/
structure Rsi (α : Type u) where
  /-- The last value that was not missing. -/
  prev : Option α
  /-- The average of the rises. -/
  gain : Ema α
  /-- The average of the falls. -/
  loss : Ema α

namespace Rsi

variable {α : Type u} [Scalar α]

def new (period : Nat) : Except KernelError (Rsi α) := do
  let gain ← Ema.running period
  let loss ← Ema.running period
  pure ⟨none, gain, loss⟩

/-- The index of an average gain and an average loss; without losses it is
full. -/
def strength (gain loss : α) : α :=
  if Scalar.isMissing gain || Scalar.isMissing loss then Scalar.missing
  else if Scalar.isZero loss then Scalar.ofNat 100
  else
    Scalar.ofNat 100 - Scalar.ofNat 100 / (Scalar.ofNat 1 + gain / loss)

/-- Feeds one value. The first value has nothing to compare with. -/
def next (k : Rsi α) (v : α) : α × Rsi α :=
  if Scalar.isMissing v then (Scalar.missing, k)
  else
    match k.prev with
    | none => (Scalar.missing, { k with prev := some v })
    | some prev =>
      let delta := v - prev
      let (gain, gains) := k.gain.next (Scalar.maximum delta (Scalar.ofNat 0))
      let (loss, losses) := k.loss.next (Scalar.maximum (-delta) (Scalar.ofNat 0))
      (strength gain loss, ⟨some v, gains, losses⟩)

end Rsi

/-- One point of the convergence of two averages. -/
structure MacdPoint (α : Type u) where
  /-- The fast average less the slow one. -/
  macd : α
  /-- The average of that difference. -/
  signal : α
  /-- How far the difference is above its average. -/
  histogram : α

/-- The state of the convergence of two averages. -/
structure Macd (α : Type u) where
  fast : Ema α
  slow : Ema α
  signal : Ema α

namespace Macd

variable {α : Type u} [Scalar α]

/-- Averages over three periods, the first invalid one being reported. -/
def new (fast slow signal : Nat) : Except KernelError (Macd α) := do
  let fast ← Ema.new fast
  let slow ← Ema.new slow
  let signal ← Ema.new signal
  pure ⟨fast, slow, signal⟩

def next (k : Macd α) (v : α) : MacdPoint α × Macd α :=
  let (f, fast) := k.fast.next v
  let (s, slow) := k.slow.next v
  let macd := f - s
  let (line, signal) := k.signal.next macd
  (⟨macd, line, macd - line⟩, ⟨fast, slow, signal⟩)

end Macd

/-- The state of a running total. -/
structure Cumulative (α : Type u) where
  /-- The sum of the values that were not missing. -/
  total : α

namespace Cumulative

variable {α : Type u} [Scalar α]

def new : Cumulative α :=
  ⟨Scalar.ofNat 0⟩

/-- Feeds one value; a missing one adds nothing. -/
def next (k : Cumulative α) (v : α) : α × Cumulative α :=
  if Scalar.isMissing v then (k.total, k) else (k.total + v, ⟨k.total + v⟩)

end Cumulative

end BarScript

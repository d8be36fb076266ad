import BarScript.Indicator.Basic

/-!
# Runs that go on

A run that is handed candles as they come. Candles that are not newer than the
last one processed are skipped. If a bar fails, the bars before it are kept and
the bar leaves no trace: the context is made again from the candles processed
so far.
-/

namespace BarScript

/-- How far a run has come. -/
structure Checkpoint where
  /-- The number of candles processed. -/
  bars : Nat := 0
  /-- The timestamp of the last of them. -/
  lastTs? : Option Int := none
deriving Repr, DecidableEq

/-- A run that goes on. -/
structure Incremental where
  indicator : Indicator
  config : Config
  machine : Machine
  checkpoint : Checkpoint := {}
  /-- The candles run so far, oldest first. -/
  processed : Array Candle := #[]
  output : Output := {}

namespace Incremental

/-- A run that no candle has been handed to. -/
def new (indicator : Indicator) (config : Config) : Incremental :=
  { indicator, config, machine := indicator.machine config }

/-- The timestamp of the last candle processed. -/
def lastTs? (r : Incremental) : Option Int :=
  r.checkpoint.lastTs?

/-- Whether a candle is not newer than the last one processed. -/
def isSeen (r : Incremental) (c : Candle) : Bool :=
  match r.lastTs? with
  | some last => decide (c.ts ≤ last)
  | none => false

/-- Runs the candles that are new, up to the first that fails. -/
def advance : Incremental → (fresh : Output) → List Candle → Option Halt × Output × Incremental
  | r, fresh, [] => (none, fresh, r)
  | r, fresh, c :: rest =>
    if r.isSeen c then advance r fresh rest
    else
      match (r.indicator.step c fresh).run r.machine with
      | .ok fresh machine =>
        let checkpoint := { bars := r.checkpoint.bars + 1, lastTs? := some c.ts }
        advance { r with machine, checkpoint, processed := r.processed.push c } fresh rest
      | .error halt machine => (some halt, fresh, { r with machine })

/-- Makes the context again from the candles processed. If one of them fails
now, the context is left as that bar leaves it. -/
def rebuild (r : Incremental) : Except Halt Incremental :=
  let start : Machine := { heap := r.machine.heap, context := { config := r.config } }
  match (r.indicator.record r.processed.toList {}).run start with
  | .ok _ machine => .ok { r with machine }
  | .error (.error _) machine => .ok { r with machine }
  | .error halt _ => .error halt

/-- Hands candles to a run: the rows of the new ones, or why the first failing
bar fails. -/
def applyDelta (r : Incremental) (candles : List Candle) : Except Halt Output × Incremental :=
  let (halt?, fresh, r) := r.advance {} candles
  let r := { r with output := r.output.append fresh }
  match halt? with
  | none => (.ok fresh, r)
  | some halt =>
    match r.rebuild with
    | .ok r => (.error halt, r)
    | .error other => (.error other, r)

/-- Starts over. What the script has changed in its receiver stays changed. -/
def reset (r : Incremental) : Incremental :=
  { r with
    machine := { heap := r.machine.heap, context := { config := r.config } }
    checkpoint := {}
    processed := #[]
    output := {} }

end Incremental

end BarScript

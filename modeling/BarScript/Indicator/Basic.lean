import BarScript.Compile.Artifact
import BarScript.Feed.Store
import BarScript.Indicator.Output
import BarScript.Machine.Eval

/-!
# Indicators

An indicator is a script with a receiver, which the script sees as `this`. All
runs of an indicator share the receiver, so what a script changes in an array
or object of it is still changed in the next run; everything else begins anew
with each run.
-/

namespace BarScript

/-- A script with a receiver. -/
structure Indicator where
  program : Program
  receiver : Value
  /-- What the receiver is made of. -/
  heap : Heap

namespace Indicator

/-- A script bound to its receiver. -/
def ofProgram (program : Program) (receiver : Json) : Indicator :=
  let (receiver, heap) := ({} : Heap).ofJson receiver
  { program, receiver, heap }

/-- The indicator of the text of a script, which is run as it is. -/
def bind (source : String) (receiver : Json) : Except CompileError Indicator := do
  return ofProgram (← parse source) receiver

/-- Compiles a script, and reads it back from what is printed. -/
def compileAndBind (options : Options) (source : String) (receiver : Json) :
    Except CompileError Indicator := do
  let artifact ← compile options source
  bind artifact.source receiver

/-- The machine that a run starts on. -/
def machine (ind : Indicator) (config : Config) : Machine :=
  { heap := ind.heap, context := { config } }

/-- Runs the script on the current bar. The result shares nothing with the
machine. -/
def invoke (ind : Indicator) : Exec Snapshot := do
  let v ← Machine.run ind.receiver ind.program
  Exec.heap? fun h => h.collapsed? v

/-- Runs the script on a candle and adds its row. -/
def step (ind : Indicator) (candle : Candle) (o : Output) : Exec Output := do
  Machine.beginStep candle
  let v ← ind.invoke
  return o.record candle.ts v

/-- Runs the script on candles in turn. -/
def record (ind : Indicator) : List Candle → Output → Exec Output
  | [], o => return o
  | c :: rest, o => do
    let o ← ind.step c o
    ind.record rest o

/-- Runs a series of candles from a new context. Beside the outcome there is the
indicator as the run leaves it. -/
def run (ind : Indicator) (config : Config) (candles : List Candle) :
    Except Halt (Output × Machine) × Indicator :=
  match (ind.record candles {}).run (ind.machine config) with
  | .ok o m => (.ok (o, m), { ind with heap := m.heap })
  | .error e m => (.error e, { ind with heap := m.heap })

/-- Why a run on stored candles fails. -/
inductive Failure where
  | feed (e : Feed.Error)
  | halt (h : Halt)

def runFrom (ind : Indicator) (config : Config) (store : Feed.Store) (symbol : String)
    (tf : TimeFrame) (limit : Nat) : Except Failure Output :=
  match store.candles symbol tf limit with
  | .error e => .error (.feed e)
  | .ok candles =>
    match (ind.run config candles).1 with
    | .ok (o, _) => .ok o
    | .error h => .error (.halt h)

end Indicator

end BarScript

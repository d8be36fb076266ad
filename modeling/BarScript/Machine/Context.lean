import BarScript.Candle
import BarScript.Kernel.CallSite
import BarScript.Kernel.Oscillator
import BarScript.Machine.Error
import BarScript.Value.Operator

/-!
# The context of a run

A script runs once per bar against a context. The context names histories: the
fields of the candles, the slots of the script in two buckets, and the
arguments of namespace calls. At each new bar every named history moves by one
bar, carrying its value on, so that a slot which nothing writes keeps its value.

Work on a context is done in `Exec`: it may change the machine, and what it has
changed stays changed if it fails.
-/

namespace BarScript

/-- The settings of a context. -/
structure Config where
  /-- Decimal places that `precision` keeps. -/
  precisionDigits : Nat := 10
  /-- Bars that a history keeps. -/
  maxHistory : Option Nat := none
  /-- Rounds that one loop may take. -/
  maxLoopIterations : Nat := 100000
  /-- Calls of script functions that may be open at once. -/
  maxCallDepth : Nat := 64
deriving Repr, DecidableEq

/-- The factor that keeps the decimal places of the settings. The count is a
word of 32 bits and is read as a signed one. -/
def Config.scale (c : Config) : Float :=
  Number.powInt 10.0 (Int.bmod c.precisionDigits 4294967296)

/-- The state of one stateful call. -/
inductive StateKernel where
  | average (k : Ema Float)
  | rsi (k : Rsi Float)
  | macd (k : Macd Float)
  | cumulative (k : Cumulative Float)

/-- What a stateful call gives: a number, or a point of three. -/
inductive Reading where
  | number (x : Float)
  | point (p : MacdPoint Float)

def StateKernel.next (k : StateKernel) (x : Float) : Reading × StateKernel :=
  match k with
  | average k =>
    let (y, k) := k.next x
    (.number y, .average k)
  | rsi k =>
    let (y, k) := k.next x
    (.number y, .rsi k)
  | macd k =>
    let (p, k) := k.next x
    (.point p, .macd k)
  | cumulative k =>
    let (y, k) := k.next x
    (.number y, .cumulative k)

/-- The state of a run. -/
structure Context where
  config : Config := {}
  /-- The bars begun so far. -/
  steps : Nat := 0
  data : Dict Ref := .empty
  /-- The slots that may be assigned again. -/
  lets : Dict Ref := .empty
  /-- The slots that may not. -/
  consts : Dict Ref := .empty
  params : Dict Ref := .empty
  kernels : CallSites StateKernel := {}

namespace Context

/-- The number of the current bar, from zero. -/
def barIndex (c : Context) : Nat :=
  c.steps - 1

def slots (c : Context) : Bucket → Dict Ref
  | .let => c.lets
  | .const => c.consts

def setSlot (c : Context) (b : Bucket) (name : String) (r : Ref) : Context :=
  match b with
  | .let => { c with lets := c.lets.insert name r }
  | .const => { c with consts := c.consts.insert name r }

/-- Every history that the context names, once for each name. -/
def named (c : Context) : List Ref :=
  c.data.values ++ c.lets.values ++ c.consts.values ++ c.params.values

def view (d : Dict Ref) (name : String) : Value :=
  match d.get? name with
  | some r => .series r 0
  | none => .na

/-- The series of a data field, `na` if there is none. -/
def dataSeries (c : Context) (name : String) : Value :=
  view c.data name

/-- The series of a slot, `na` if there is none. -/
def slot (c : Context) (b : Bucket) (name : String) : Value :=
  view (c.slots b) name

end Context

/-- A heap and the context that names its histories. -/
structure Machine where
  heap : Heap := {}
  context : Context := {}

instance : Inhabited Machine := ⟨{}⟩

abbrev Exec := EStateM Halt Machine

namespace Exec

def fail (e : RuntimeError) : Exec α :=
  throw (.error e)

def heap (f : Heap → α) : Exec α := do
  return f (← get).heap

def context (f : Context → α) : Exec α := do
  return f (← get).context

/-- Reads what a value that contains itself does not have. -/
def heap? (f : Heap → Option α) : Exec α := do
  match f (← get).heap with
  | some a => return a
  | none => throw .endless

def modifyHeap (f : Heap → Heap) : Exec Unit :=
  modify fun m => { m with heap := f m.heap }

def alloc (f : Heap → α × Heap) : Exec α :=
  modifyGet fun m =>
    let (a, heap) := f m.heap
    (a, { m with heap })

def modifyContext (f : Context → Context) : Exec Unit :=
  modify fun m => { m with context := f m.context }

end Exec

namespace Machine

/-! ## Histories -/

/-- A new history that begins with a value, kept as long as the settings say. -/
def newSeries (v : Value) : Exec Ref := do
  let capacity ← Exec.context fun c => c.config.maxHistory
  Exec.alloc fun h => h.newHistory (.withCurrent v capacity)

/-- Sets the current value of a data field. -/
def setData (name : String) (x : Float) : Exec Unit := do
  match ← Exec.context fun c => c.data.get? name with
  | some r => Exec.modifyHeap fun h => h.modifyHistory r fun s => s.setCurrent (.number x)
  | none =>
    let r ← newSeries (.number x)
    Exec.modifyContext fun c => { c with data := c.data.insert name r }

/-- The fields of a candle, in the order they are set. -/
def candleFields (c : Candle) : List (String × Float) :=
  [("open", c.opening), ("high", c.high), ("low", c.low), ("close", c.close),
    ("volume", c.volume), ("hl2", c.hl2), ("hlc3", c.hlc3), ("ohlc4", c.ohlc4),
    ("openTime", Float.ofInt c.ts), ("closeTime", Float.ofInt c.closeTs)]

/-- Begins a bar: moves every named history on and sets the fields of the
candle. There is nothing to move before the first bar. -/
def beginStep (candle : Candle) : Exec Unit := do
  let c ← Exec.context id
  if 0 < c.steps then
    Exec.modifyHeap fun h => c.named.foldl (fun h r => h.modifyHistory r History.advance) h
  Exec.modifyContext fun c => { c with steps := c.steps + 1 }
  (candleFields candle).forM fun (name, x) => setData name x

/-! ## Slots and arguments -/

/-- Assigns to a slot. A series that is not shifted brings its history with it;
any other value starts a new one. -/
def storeSlot (b : Bucket) (name : String) (v : Value) : Exec Unit := do
  let r ← match v with
    | .series r 0 => pure r
    | _ => newSeries (← Exec.heap fun h => h.current v)
  Exec.modifyContext fun c => c.setSlot b name r

/-- Declares a slot on this bar: the first time it starts a history, later it
replaces the current value. A series counts as its value at the offset. -/
def init (slot value offset : Value) : Exec Value := do
  let v ← match value with
    | .series r o => Exec.heap fun h => h.seriesGet r o (h.bars offset)
    | v => pure v
  match slot with
  | .series r o =>
    Exec.modifyHeap fun h => h.modifyHistory r fun s => s.setCurrent v
    return .series r o
  | _ => return .series (← newSeries v) 0

/-- The history of an argument, by its key. -/
def paramHistory (id : String) : Exec Ref := do
  match ← Exec.context fun c => c.params.get? id with
  | some r => return r
  | none =>
    let capacity ← Exec.context fun c => c.config.maxHistory
    let r ← Exec.alloc fun h => h.newHistory (.new capacity)
    Exec.modifyContext fun c => { c with params := c.params.insert id r }
    return r

/-- Hands an argument to a namespace function as a series, shifted by its
offset. A plain value gets a history of its own; a function stays as it is. -/
def param (value offset : Value) (id : String) : Exec Value := do
  let shift ← Exec.heap fun h => h.bars offset
  match value with
  | .series r o => return .series r (shiftOffset o shift)
  | .func _ _ | .native _ _ => return value
  | _ =>
    let r ← paramHistory id
    Exec.modifyHeap fun h => h.modifyHistory r fun s => s.setCurrent value
    return .series r shift

/-! ## Rounding -/

/-- What rounding makes of a value: a value, or a new array. -/
inductive Rounded where
  | value (v : Value)
  | array (items : List Rounded)

mutual

/-- The value that rounding makes, its arrays allocated from the inside out. -/
def Rounded.make : Rounded → Exec Value
  | .value v => return v
  | .array items => do
    let vs ← Rounded.makeList items
    Exec.alloc fun h => h.newArray vs.toArray

def Rounded.makeList : List Rounded → Exec (List Value)
  | [] => return []
  | t :: rest => do
    let v ← t.make
    return v :: (← Rounded.makeList rest)

end

/-- A number rounded by a factor; a half goes away from zero. -/
def roundBy (scale x : Float) : Float :=
  if Number.isFinite x then Number.round (x * scale) / scale else x

/-- What rounding makes of a value within a depth. -/
def rounded? (h : Heap) (scale : Float) : (depth : Nat) → Value → Option Rounded
  | 0, _ => none
  | n + 1, v =>
    match v with
    | .number x => some (.value (.number (roundBy scale x)))
    | .array r =>
      .array <$> (h.array r).toList.mapM fun w => rounded? h scale n (h.current w)
    | v => some (.value v)

/-- Rounds a value to the decimal places of the settings; an array is copied
with its elements rounded. -/
def precision (v : Value) : Exec Value := do
  let scale ← Exec.context fun c => c.config.scale
  let rounded ← Exec.heap? fun h => rounded? h scale h.depthBound (h.current v)
  rounded.make

end Machine

end BarScript

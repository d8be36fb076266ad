import BarScript.Kernel.Window
import BarScript.Machine.Context

/-!
# The namespaces

The functions that a script reaches through `ta`, `math`, `array` and `core`.
A stateful function keeps its kernel under the key that ends its arguments; a
window function reads the history of its argument.
-/

namespace BarScript

namespace Library

/-! ## Arguments -/

def arg (args : List Value) (i : Nat) : Value :=
  args.getD i .na

def num (h : Heap) (args : List Value) (i : Nat) : Float :=
  match args[i]? with
  | some v => h.number v
  | none => Number.nan

def nums (h : Heap) (args : List Value) : List Float :=
  args.map h.number

/-- An argument as a length. A missing one may have a default. -/
def length (function : String) (h : Heap) (args : List Value) (i : Nat) (default : Option Nat) :
    Except RuntimeError Nat :=
  let x := num h args i
  match if x.isNaN then default else none with
  | some d => .ok d
  | none =>
    if !Number.isFinite x || x < 0.0 then .error (.invalidArgument function (.badLength x))
    else if x > maxLength.toFloat then .error (.invalidArgument function (.lengthLimit x))
    else .ok (Number.toIndex x)

/-- The newest values of an argument. A plain value fills a window of one. -/
def window? (h : Heap) (args : List Value) (i len : Nat) : Option (List Float) :=
  match args[i]? with
  | none => none
  | some (.series r offset) => h.window? r offset len
  | some v => if len == 1 then some [h.number v] else none

/-- A statistic of a window, `NaN` until the window is full. -/
def overWindow (h : Heap) (args : List Value) (i len : Nat) (f : List Float → Float) : Value :=
  .number (match window? h args i len with
    | some w => f w
    | none => Number.nan)

def flag (h : Heap) (args : List Value) (i : Nat) (default : Bool) : Bool :=
  match args[i]? with
  | none => default
  | some v =>
    match h.current v with
    | .na => default
    | w => h.truthy w

def checked (r : Except RuntimeError α) : Exec α :=
  match r with
  | .ok a => return a
  | .error e => Exec.fail e

def lengthArg (function : String) (args : List Value) (i : Nat) (default : Option Nat) :
    Exec Nat := do
  checked (← Exec.heap fun h => length function h args i default)

/-- The error for a function that a namespace does not have. -/
def unknown (ns : Namespace) (name : String) : Exec α :=
  Exec.fail (.unknownFunction ns.name name)

/-! ## Technical analysis -/

/-- The arguments without the key at their end, and the key. -/
def splitKey (args : List Value) : List Value × Option String :=
  match args.getLast? with
  | some (.str id) => (args.dropLast, some id)
  | _ => (args, none)

def readingValue : Reading → Exec Value
  | .number x => return .number x
  | .point p => Exec.alloc fun h =>
    h.newArray #[.number p.macd, .number p.signal, .number p.histogram]

/-- A stateful call: feeds the kernel of its key, which is made on the first
call. -/
def stateful (function : String) (key : Option String) (x : Float)
    (init : Except KernelError StateKernel) : Exec Value := do
  match key with
  | none => Exec.fail (.invalidArgument function .noCallId)
  | some id =>
    match ← Exec.context fun c => c.kernels.update id c.steps init fun k => k.next x with
    | .error e => Exec.fail (.kernel e)
    | .ok (reading, kernels) =>
      Exec.modifyContext fun c => { c with kernels }
      readingValue reading

/-- A function with one length, that keeps state. -/
def stateful? : String → Option (Nat → Except KernelError StateKernel)
  | "ema" => some fun n => .average <$> Ema.new n
  | "rma" => some fun n => .average <$> Ema.running n
  | "rsi" => some fun n => .rsi <$> Rsi.new n
  | _ => none

def statistic? : String → Option (List Float → Float)
  | "sma" => some Window.mean
  | "wma" => some Window.wma
  | "highest" => some Window.highest
  | "lowest" => some Window.lowest
  | "stdev" => some fun w => Window.stdev w true
  | _ => none

/-- The change over a window: its newest value less its oldest. -/
def change (w : List Float) : Float :=
  w.headD Number.nan - w.getLastD Number.nan

/-- Whether one of two windows of two values crossed above the other. -/
def crossedOver : List Float → List Float → Bool
  | [a, a'], [b, b'] => a > b && a' ≤ b'
  | _, _ => false

/-- Whether one of two windows of two values crossed below the other. -/
def crossedUnder : List Float → List Float → Bool
  | [a, a'], [b, b'] => a < b && a' ≥ b'
  | _, _ => false

/-- Whether the last two values of two arguments crossed. -/
def crossing (h : Heap) (args : List Value) (crossed : List Float → List Float → Bool) : Bool :=
  match window? h args 0 2, window? h args 1 2 with
  | some a, some b => crossed a b
  | _, _ => false

def ta (name : String) (args : List Value) : Exec Value := do
  let (args, key) := splitKey args
  let function := "ta." ++ name
  match name with
  | "macd" =>
    let fast ← lengthArg function args 1 (some 12)
    let slow ← lengthArg function args 2 (some 26)
    let signal ← lengthArg function args 3 (some 9)
    let x ← Exec.heap fun h => num h args 0
    stateful function key x (.macd <$> Macd.new fast slow signal)
  | "cum" =>
    let x ← Exec.heap fun h => num h args 0
    stateful function key x (.ok (.cumulative Cumulative.new))
  | "change" =>
    let len ← lengthArg function args 1 (some 1)
    Exec.heap fun h => overWindow h args 0 (len + 1) change
  | "crossover" => Exec.heap fun h => .bool (crossing h args crossedOver)
  | "crossunder" => Exec.heap fun h => .bool (crossing h args crossedUnder)
  | _ =>
    match stateful? name, statistic? name with
    | some kernel, _ =>
      let len ← lengthArg function args 1 none
      let x ← Exec.heap fun h => num h args 0
      stateful function key x (kernel len)
    | none, some f =>
      let len ← lengthArg function args 1 none
      Exec.heap fun h => overWindow h args 0 len f
    | none, none => unknown .ta name

/-! ## Mathematics -/

/-- The sign of a number; zero and what is no number stay. -/
def sign (x : Float) : Float :=
  if x.isNaN || x == 0.0 then x else if x < 0.0 then -1.0 else 1.0

def roundTo (x digits : Float) : Float :=
  if digits.isNaN then Number.round x
  else
    let scale := Number.powInt 10.0 (Number.toInt32 digits)
    Number.round (x * scale) / scale

/-- The numbers combined; `NaN` if there are none or one of them is no number. -/
def combine (f : Float → Float → Float) (xs : List Float) : Float :=
  match xs with
  | [] => Number.nan
  | x :: rest => if xs.any Float.isNaN then Number.nan else rest.foldl f x

def elementary? : String → Option (Float → Float)
  | "abs" => some Float.abs
  | "sqrt" => some Float.sqrt
  | "log" => some Float.log
  | "exp" => some Float.exp
  | "floor" => some Number.floor
  | "ceil" => some Number.ceil
  | "sign" => some sign
  | _ => none

def math (name : String) (args : List Value) : Exec Value := do
  match name with
  | "__eq" => Exec.heap fun h => .bool (h.tolerantEq (arg args 0) (arg args 1))
  | "round" => Exec.heap fun h => .number (roundTo (num h args 0) (num h args 1))
  | "pow" => Exec.heap fun h => .number (Float.pow (num h args 0) (num h args 1))
  | "max" => Exec.heap fun h => .number (combine Number.maxNum (nums h args))
  | "min" => Exec.heap fun h => .number (combine Number.minNum (nums h args))
  | "avg" => Exec.heap fun h => .number (Window.mean (nums h args))
  | "sum" =>
    let len ← lengthArg "math.sum" args 1 none
    Exec.heap fun h => overWindow h args 0 len Window.sum
  | _ =>
    match elementary? name with
    | some f => Exec.heap fun h => .number (f (num h args 0))
    | none => unknown .math name

/-! ## Arrays -/

def arrayArg (function : String) (args : List Value) : Exec Ref := do
  match ← Exec.heap fun h => h.current (arg args 0) with
  | .array r => return r
  | v => Exec.fail (.invalidArgument function (.notAnArray v.kind))

/-- An argument as the place of an element. -/
def elementIndex (function : String) (args : List Value) (i size : Nat) : Exec Nat := do
  let x ← Exec.heap fun h => num h args i
  if !Number.isFinite x || x < 0.0 || size ≤ Number.toIndex x then
    Exec.fail (.invalidArgument function (.outOfBounds x size))
  else return Number.toIndex x

/-- A statistic of the elements of an array. -/
def overArray (r : Ref) (f : List Float → Float) : Exec Value :=
  Exec.heap fun h => .number (f (nums h (h.array r).toList))

def arrayMethod (function name : String) (r : Ref) (args : List Value) : Exec Value := do
  match name with
  | "get" =>
    let i ← elementIndex function args 1 (← Exec.heap fun h => (h.array r).size)
    Exec.heap fun h => (h.array r).getD i .na
  | "set" =>
    let i ← elementIndex function args 1 (← Exec.heap fun h => (h.array r).size)
    let v ← Exec.heap fun h => h.current (arg args 2)
    Exec.modifyHeap fun h => h.modifyArray r fun a => a.setIfInBounds i v
    return .na
  | "push" =>
    let v ← Exec.heap fun h => h.current (arg args 1)
    Exec.modifyHeap fun h => h.modifyArray r fun a => a.push v
    return .na
  | "pop" =>
    let v ← Exec.heap fun h => (h.array r).back?.getD .na
    Exec.modifyHeap fun h => h.modifyArray r Array.pop
    return v
  | "clear" =>
    Exec.modifyHeap fun h => h.modifyArray r fun _ => #[]
    return .na
  | "size" => Exec.heap fun h => .number (h.array r).size.toFloat
  | "sum" => overArray r Window.sum
  | "avg" => overArray r Window.mean
  | "min" => overArray r Window.lowest
  | "max" => overArray r Window.highest
  | "variance" =>
    let biased ← Exec.heap fun h => flag h args 1 true
    overArray r fun xs => Window.variance xs biased
  | "stdev" =>
    let biased ← Exec.heap fun h => flag h args 1 true
    overArray r fun xs => Window.stdev xs biased
  | _ => unknown .array name

def array (name : String) (args : List Value) : Exec Value := do
  let function := "array." ++ name
  match name with
  | "new_float" =>
    let size ← lengthArg function args 0 (some 0)
    let x ← Exec.heap fun h => num h args 1
    Exec.alloc fun h => h.newArray (Array.replicate size (.number x))
  | "from" =>
    let items ← Exec.heap fun h => args.map h.current
    Exec.alloc fun h => h.newArray items.toArray
  | _ =>
    let r ← arrayArg function args
    arrayMethod function name r args

/-! ## The rest -/

/-- A value, or a replacement if it is missing. -/
def nz (h : Heap) (args : List Value) : Value :=
  let v := h.current (arg args 0)
  if h.isNa v then
    match args[1]? with
    | some w => h.current w
    | none => .number 0.0
  else v

def core (name : String) (args : List Value) : Exec Value := do
  match name with
  | "na" => Exec.heap fun h => .bool (h.isNa (arg args 0))
  | "nz" => Exec.heap fun h => nz h args
  | _ => unknown .core name

def call (ns : Namespace) (name : String) (args : List Value) : Exec Value :=
  match ns with
  | .ta => ta name args
  | .math => math name args
  | .array => array name args
  | .core => core name args
  | .data => unknown .data name

end Library

end BarScript

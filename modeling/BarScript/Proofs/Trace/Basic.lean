import BarScript.Proofs.Bars
import BarScript.Proofs.Simulation.Eval

/-!
# Traced runs

Some facts about a script are not about what it gives but about what happens on the
way: what a name stood for when it was read, how far back a history was looked at,
what a namespace function was handed and what happened in between. A *traced* run does
what the plain run does and writes down these events as they happen.

The traced evaluator follows the plain one construct by construct, and that it is
the plain one up to the trace is a theorem (`Traced.rows_erases`).
-/

namespace BarScript

open Machine

/-- What may change histories. -/
inductive Touch where
  /-- A value was wrapped under a key. -/
  | wrapped (key : String)
  /-- The script set bars of a history, or began a new one. -/
  | wrote (r : Ref)
  /-- A bar began. -/
  | began
  /-- A script function was entered, something was assigned, or the script called a
  function of the context by itself. Nothing changes by this alone. -/
  | stirred
deriving DecidableEq

/-- Whether a touch is one of a history, on a machine. -/
def Touch.reaches (m : Machine) (r : Ref) : Touch → Bool
  | .wrapped key => m.context.params.get? key == some r
  | .wrote q => q == r
  | .began => true
  | .stirred => false

/-- An argument of a call. -/
structure Argument where
  value : Value
  /-- What the argument showed when it was evaluated. -/
  shown : Value
  /-- The key under which the argument is wrapped, if it is. -/
  key : Option String
  /-- What happened while the arguments after it were evaluated. -/
  later : List Touch

/-- What a trace tells. -/
inductive Event where
  /-- A name was read, and stood for a value or for none. -/
  | name (x : String) (v : Except Halt Value)
  /-- A history was read, so many bars back. -/
  | history (index : Nat)
  | touch (t : Touch)
  /-- A value was wrapped: what it was to show, and what it shows. -/
  | wrapped (asked given : Value)
  /-- A namespace function began on a machine with its arguments, called as written. -/
  | native (site : Expr) (ns : Namespace) (function : String) (m : Machine) (args : List Argument)

def Event.touch? : Event → Option Touch
  | .touch t => some t
  | _ => none

def touches (events : List Event) : List Touch :=
  events.filterMap Event.touch?

def Expr.wrapKey? : Expr → Option String
  | .call (.member _ "param") [_, _, .str k] => some k
  | _ => none

def Traced (α : Type) : Type :=
  Machine → List Event × Ending α

namespace Traced

variable {α β : Type}

def andThen (x : Traced α) (f : α → Traced β) : Traced β := fun m =>
  match x m with
  | (events, .ok a m') => (events ++ (f a m').1, (f a m').2)
  | (events, .error e m') => (events, .error e m')

instance : Monad Traced where
  pure a := fun m => ([], .ok a m)
  bind := andThen

/-- Plain work, with what is to be told of it. -/
def watch (events : Machine → Ending α → List Event) (x : Exec α) : Traced α := fun m =>
  (events m (x m), x m)

/-- Plain work of which there is nothing to tell. -/
def quiet (x : Exec α) : Traced α :=
  watch (fun _ _ => []) x

def stir : Traced Unit := fun m =>
  ([.touch .stirred], .ok () m)

def overheard (x : Traced α) : Traced (α × List Touch) := fun m =>
  match x m with
  | (events, .ok a m') => (events, .ok (a, touches events) m')
  | (events, .error e m') => (events, .error e m')

def reading (indices : Heap → List Nat) (x : Exec α) : Traced α :=
  watch (fun m _ => (indices m.heap).map .history) x

end Traced

/-! ## What is looked at -/

/-- Where the current value of a value is looked up, if it is a view. -/
def Value.viewed : Value → List Nat
  | .series _ offset => [offset]
  | _ => []

/-- The history that a value is a view of, if it is one. -/
def Value.refs : Value → List Ref
  | .series r _ => [r]
  | _ => []

namespace Heap

def elementReads (h : Heap) (base index : Value) : List Nat :=
  match base with
  | .series _ offset => index.viewed ++ ((h.position? index).map (offset + ·)).toList
  | .array _ | .object _ | .str _ => index.viewed
  | _ => []

/-- Where a window of numbers looks furthest back, once it is full. -/
def windowReads (h : Heap) (args : List Value) (i len : Nat) : List Nat :=
  match args[i]? with
  | some (.series r offset) =>
    if len == 0 || h.seriesLength r offset < len then [] else [offset + (len - 1)]
  | _ => []

def initReads (h : Heap) (value offset : Value) : List Nat :=
  match value with
  | .series _ o => offset.viewed ++ [o + h.bars offset]
  | _ => []

/-- Where assigning to a slot or field looks. -/
def memberWriteReads (base v : Value) : List Nat :=
  match base, v with
  | .bucket _, .series _ 0 => []
  | _, v => v.viewed

end Heap

namespace Library

/-- Where reading the current value of an argument looks. -/
def argReads (args : List Value) (i : Nat) : List Nat :=
  (args[i]?).elim [] Value.viewed

/-- Where reading the current values of all arguments looks. -/
def allReads (args : List Value) : List Nat :=
  args.flatMap Value.viewed

/-- Where a statistic of a window looks, whose length is an argument. -/
def statisticReads (function : String) (h : Heap) (args : List Value) (default : Option Nat)
    (extra : Nat) : List Nat :=
  argReads args 1 ++
    match length function h args 1 default with
    | .ok len => h.windowReads args 0 (len + extra)
    | .error _ => []

def taReads (name : String) (h : Heap) (args : List Value) : List Nat :=
  let args := (splitKey args).1
  match name with
  | "macd" => argReads args 0 ++ argReads args 1 ++ argReads args 2 ++ argReads args 3
  | "cum" => argReads args 0
  | "change" => statisticReads "ta.change" h args (some 1) 1
  | "crossover" | "crossunder" => h.windowReads args 0 2 ++ h.windowReads args 1 2
  | _ =>
    if (stateful? name).isSome then argReads args 0 ++ argReads args 1
    else statisticReads ("ta." ++ name) h args none 0

def mathReads (name : String) (h : Heap) (args : List Value) : List Nat :=
  match name with
  | "sum" => statisticReads "math.sum" h args none 0
  | "__eq" | "round" | "pow" => argReads args 0 ++ argReads args 1
  | "max" | "min" | "avg" => allReads args
  | _ => argReads args 0

def arrayReads (name : String) (args : List Value) : List Nat :=
  match name with
  | "from" => allReads args
  | "set" => argReads args 0 ++ argReads args 1 ++ argReads args 2
  | "new_float" | "get" | "push" | "variance" | "stdev" => argReads args 0 ++ argReads args 1
  | _ => argReads args 0

def coreReads (name : String) (h : Heap) (args : List Value) : List Nat :=
  argReads args 0 ++ if name == "nz" && h.isNa (h.current (arg args 0)) then argReads args 1 else []

/-- Where a call of a namespace function looks. -/
def reads (ns : Namespace) (name : String) (h : Heap) (args : List Value) : List Nat :=
  match ns with
  | .ta => taReads name h args
  | .math => mathReads name h args
  | .array => arrayReads name args
  | .core => coreReads name h args
  | .data => []

end Library

/-! ## Traced trees -/

/-- What a tree is run with, traced. -/
structure TracedHost where
  receiver : Value
  rounds : Nat
  call : Func → Env → List Value → Traced Value

namespace Traced

def readName (env : Env) (x : String) : Traced Value :=
  watch (fun _ ending => [.name x ending.outcome]) (Machine.readName env x)

def truthy (v : Value) : Traced Bool :=
  reading (fun _ => v.viewed) (Exec.heap fun h => h.truthy v)

def current (v : Value) : Traced Value :=
  reading (fun _ => v.viewed) (Exec.heap fun h => h.current v)

def readMember (base : Value) (property : String) : Traced Value :=
  reading (fun _ => base.viewed) (Machine.readMember base property)

def readElement (base index : Value) : Traced Value :=
  reading (fun h => h.elementReads base index) (Machine.readElement base index)

def binary (op : BinaryOp) (l r : Value) : Traced Value :=
  reading (fun _ => l.viewed ++ r.viewed) (Exec.heap? fun h => h.binary? op l r)

/-- Plain work that looks at histories and sets one. -/
def writing (indices : Heap → List Nat) (refs : Machine → List Ref) (x : Exec α) : Traced α :=
  watch (fun m _ =>
    (indices m.heap).map .history ++ (refs m).map fun r => .touch (.wrote r)) x

/-- Assigns to a field. A slot may begin a new history. -/
def writeMember (base : Value) (property : String) (v : Value) : Traced Unit :=
  writing (fun _ => Heap.memberWriteReads base v) (fun m => [m.heap.histories.size])
    (Machine.writeMember base property v)

def writeElement (base index v : Value) : Traced Unit :=
  writing (fun _ => index.viewed ++ v.viewed) (fun _ => base.refs)
    (Machine.writeElement base index v)

/-- Where declaring what a pattern binds looks. -/
def patternReads (h : Heap) (target : Pattern) (v : Value) : List Nat :=
  match target with
  | .ident _ => []
  | .object props => props.flatMap fun _ => v.viewed
  | .array items => items.zipIdx.flatMap fun (item, i) =>
    match item with
    | some _ => h.elementReads v (.number i.toFloat)
    | none => []

def bindPattern (env : Env) (target : Pattern) (v : Value) : Traced Unit :=
  reading (fun h => patternReads h target v) (Machine.bindPattern env target v)

/-- What a value shows some bars ago, if it is wrapped under a key: a series what it
shows itself, and a plain value what it is, or what was wrapped under the key then. -/
def asked (m : Machine) (value offset : Value) (key : String) : Value :=
  match value with
  | .series r o => m.heap.seriesGet r 0 (shiftOffset o (m.heap.bars offset))
  | .func _ _ | .native _ _ => value
  | v =>
    if m.heap.bars offset = 0 then v
    else
      ((m.context.params.get? key).map fun r => m.heap.seriesGet r 0 (m.heap.bars offset)).getD .na

def param (value offset : Value) (key : String) : Traced Value :=
  watch (fun m ending => (Library.argReads [value, offset] 1).map .history ++
    match ending with
    | .ok v m' => [.touch (.wrapped key), .wrapped (asked m value offset key) (m'.heap.current v)]
    | .error _ _ => []) (Machine.param value offset key)

def contextCall (f : ContextFn) (args : List Value) : Traced Value :=
  match f with
  | .init =>
    writing (fun h => h.initReads (Library.arg args 1) (Library.arg args 2))
      (fun m => m.heap.histories.size :: (Library.arg args 0).refs)
      (Machine.init (Library.arg args 0) (Library.arg args 1) (Library.arg args 2))
  | .param => do
    match ← reading (fun _ => Library.argReads args 2)
        (Exec.heap fun h => (args[2]?).bind h.text?) with
    | some id => param (Library.arg args 0) (Library.arg args 1) id
    | none => quiet (Exec.fail (.invalidArgument "param" .noParamId))
  | .precision => reading (fun _ => Library.argReads args 0)
      (Machine.precision (Library.arg args 0))

/-- Calls a value, as a call is written. It may be one that wraps an argument. -/
def callValue (host : TracedHost) (site : Expr) (callee : Value) (args : List Argument) :
    Traced Value :=
  match callee with
  | .func f env => do
    stir
    host.call f env (args.map Argument.value)
  | .native ns name =>
    watch (fun m _ =>
      .native site ns name m args ::
        (Library.reads ns name m.heap (args.map Argument.value)).map .history)
      (Library.call ns name (args.map Argument.value))
  | .contextFn .param =>
    if site.wrapKey?.isSome then contextCall .param (args.map Argument.value)
    else do
      stir
      contextCall .param (args.map Argument.value)
  | .contextFn f => do
    stir
    contextCall f (args.map Argument.value)
  | v => quiet do Exec.fail (.notCallable (← Exec.heap? fun h => h.debug? v))

def loop (limit : Nat) (test : Traced Bool) (body : Traced Flow) (step : Traced Unit) :
    (left : Nat) → Traced Flow
  | 0 => do
    if ← test then quiet (Exec.fail (.loopLimit limit)) else return .next
  | n + 1 => do
    if ← test then
      match ← body with
      | .breakLoop => return .next
      | .ret v => return .ret v
      | .next | .continueLoop =>
        step
        loop limit test body step n
    else return .next

end Traced

open Traced

mutual

def Expr.trace (host : TracedHost) (env : Env) : Expr → Traced Value
  | .number x => return .number x
  | .str s => return .str s
  | .bool b => return .bool b
  | .null => return .na
  | .undefined => return .na
  | .ident id => Traced.readName env id.name
  | .this => return host.receiver
  | .member base property => do Traced.readMember (← base.trace host env) property
  | .index base sub => do
    let base ← base.trace host env
    Traced.readElement base (← sub.trace host env)
  | .call callee args => do
    let v ← callee.trace host env
    Traced.callValue host (.call callee args) v (← Expr.traceArgs host env args)
  | .unary op arg => do
    let v ← arg.trace host env
    reading (fun _ => v.viewed) (Exec.heap fun h => h.unary op v)
  | .update op first target => do
    let v ← target.trace host env
    let old ← reading (fun _ => v.viewed) (Exec.heap fun h => h.number v)
    let new := match op with
      | .increment => old + 1.0
      | .decrement => old - 1.0
    target.traceWrite host env (.number new)
    return .number (if first then new else old)
  | .binary op left right => do
    let l ← left.trace host env
    let r ← right.trace host env
    Traced.binary op l r
  | .logical op left right => do
    let l ← left.trace host env
    if ← reading (fun _ => l.viewed) (Exec.heap fun h => h.settles op l) then return l
    else right.trace host env
  | .conditional test consequent alternate => do
    if ← truthy (← test.trace host env) then consequent.trace host env
    else alternate.trace host env
  | .assign op target value => do
    let rhs ← value.trace host env
    let v ← match op.binary? with
      | none => pure rhs
      | some bop => do
        let old ← target.trace host env
        Traced.binary bop old rhs
    target.traceWrite host env v
    return v
  | .array items => do
    let vs ← Expr.traceCurrent host env items
    quiet (Exec.alloc fun h => h.newArray vs.toArray)
  | .object props => do
    let fields ← Expr.traceFields host env props
    quiet (Exec.alloc fun h => h.newObject (.ofList fields))
  | .func f => return .func f env

def Expr.traceWrite (host : TracedHost) (env : Env) (v : Value) : Expr → Traced Unit
  | .ident id => do
    stir
    quiet (assignName env id.name v)
  | .member base property => do
    stir
    Traced.writeMember (← base.trace host env) property v
  | .index base sub => do
    stir
    let base ← base.trace host env
    Traced.writeElement base (← sub.trace host env) v
  | e => quiet (Exec.fail (.invalidTarget (.noPlace e)))

def Expr.traceArgs (host : TracedHost) (env : Env) : List Expr → Traced (List Argument)
  | [] => return []
  | e :: rest => do
    let v ← e.trace host env
    let shown ← quiet (Exec.heap fun h => h.current v)
    let (args, later) ← overheard (Expr.traceArgs host env rest)
    return ⟨v, shown, e.wrapKey?, later⟩ :: args

def Expr.traceCurrent (host : TracedHost) (env : Env) : List Expr → Traced (List Value)
  | [] => return []
  | e :: rest => do
    let v ← Traced.current (← e.trace host env)
    return v :: (← Expr.traceCurrent host env rest)

def Expr.traceFields (host : TracedHost) (env : Env) :
    List (String × Expr) → Traced (List (String × Value))
  | [] => return []
  | (k, e) :: rest => do
    let v ← Traced.current (← e.trace host env)
    return (k, v) :: (← Expr.traceFields host env rest)

end

def Expr.traceOpt (host : TracedHost) (env : Env) : Option Expr → Traced Value
  | none => return .na
  | some e => e.trace host env

/-- Declares the targets of declarators in order. -/
def Declarator.trace (host : TracedHost) (env : Env) : List Declarator → Traced Unit
  | [] => return ()
  | ⟨target, init, _⟩ :: rest => do
    Traced.bindPattern env target (← Expr.traceOpt host env init)
    Declarator.trace host env rest

def Expr.traceHolds (host : TracedHost) (env : Env) : Option Expr → Traced Bool
  | none => return true
  | some e => do truthy (← e.trace host env)

def ForInit.trace (host : TracedHost) (env : Env) : Option ForInit → Traced Unit
  | none => return ()
  | some (.decl ⟨_, declarators⟩) => Declarator.trace host env declarators
  | some (.expr e) => do let _ ← e.trace host env

mutual

def Stmt.trace (host : TracedHost) (env : Env) : Stmt → Traced Flow
  | .decl ⟨_, declarators⟩ => do
    Declarator.trace host env declarators
    return .next
  | .expr e => do
    let _ ← e.trace host env
    return .next
  | .branch test consequent alternate => do
    if ← truthy (← test.trace host env) then consequent.trace host env
    else match alternate with
      | none => return .next
      | some s => s.trace host env
  | .forLoop init test update body => do
    let env ← quiet (openFrame env)
    ForInit.trace host env init
    Traced.loop host.rounds (Expr.traceHolds host env test) (body.trace host env)
      (do let _ ← Expr.traceOpt host env update) host.rounds
  | .whileLoop test body =>
    Traced.loop host.rounds (Expr.traceHolds host env (some test)) (body.trace host env)
      (return ()) host.rounds
  | .block stmts => do
    let env ← quiet (openFrame env)
    quiet (hoist env stmts)
    Stmt.traceList host env stmts
  | .ret arg => do return .ret (← Expr.traceOpt host env arg)
  | .breakLoop => return .breakLoop
  | .continueLoop => return .continueLoop
  | .func _ => return .next
  | .empty => return .next

def Stmt.traceList (host : TracedHost) (env : Env) : List Stmt → Traced Flow
  | [] => return .next
  | s :: rest => do
    match ← s.trace host env with
    | .next => Stmt.traceList host env rest
    | flow => return flow

end

/-- Runs the body of a function in the frame of its parameters. -/
def FuncBody.trace (host : TracedHost) (env : Env) : FuncBody → Traced Value
  | .expr e => e.trace host env
  | .block stmts => do
    quiet (hoist env stmts)
    match ← Stmt.traceList host env stmts with
    | .next => return .na
    | .ret v => return v
    | .breakLoop => quiet (Exec.fail (.strayJump "break"))
    | .continueLoop => quiet (Exec.fail (.strayJump "continue"))

namespace Traced

/-- Runs the body of a function in a frame of its own. -/
def apply (host : TracedHost) (f : Func) (env : Env) (args : List Value) : Traced Value := do
  let r ← quiet (Exec.alloc fun h => h.newFrame (.ofList (bindParams f.params args)))
  f.body.trace host (r :: env)

/-- Calls a script function while some more calls may be opened. -/
def callWithin (receiver : Value) (rounds limit : Nat) :
    (left : Nat) → Func → Env → List Value → Traced Value
  | 0, _, _, _ => quiet (Exec.fail (.callDepth limit))
  | n + 1, f, env, args => apply ⟨receiver, rounds, callWithin receiver rounds limit n⟩ f env args

/-- Runs a script once against the context. -/
def run (receiver : Value) (p : Program) : Traced Value := do
  let config ← quiet (Exec.context fun c => c.config)
  let r ← quiet (Exec.alloc fun h => h.newFrame .empty)
  apply ⟨receiver, config.maxLoopIterations,
    callWithin receiver config.maxLoopIterations config.maxCallDepth config.maxCallDepth⟩
    p.root [r] [.context]

def bar (ind : Indicator) (c : Candle) : Traced Snapshot := do
  watch (fun _ _ => [.touch .began]) (beginStep c)
  let v ← run ind.receiver ind.program
  reading (fun _ => v.viewed) (Exec.heap? fun h => h.collapsed? v)

def rows (ind : Indicator) : List Candle → Traced (List Output.Row)
  | [] => return []
  | c :: rest => do
    let v ← bar ind c
    return (c.ts, v) :: (← rows ind rest)

end Traced

/-- What happens in a run of an indicator from a new context. -/
def Indicator.trace (ind : Indicator) (config : Config) (cs : List Candle) : List Event :=
  (Traced.rows ind cs (ind.machine config)).1

end BarScript

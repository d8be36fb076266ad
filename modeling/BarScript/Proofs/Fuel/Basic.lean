import BarScript.Proofs.Bars

/-!
# Running on fuel

The evaluator runs by recursion on the tree, and on the rounds and calls that are left.
Here is the same language run in the plain way: every function of the evaluator may call
every other, a loop goes on until its test fails, and a counter of rounds and a counter of
open calls are all that stops it. Such a recursion need not come to an end, so it runs on
fuel, one unit for each step into a part of the script, and without fuel there is no
result.

As it goes it writes a log: the machine after each operation, the rounds of loops, the
calls that are entered and left with the counter as it is then, and the elements that are
assigned. How the counter of rounds goes up is left open, so that it can be a word which
starts again from zero. The counter of calls is part of the state, set back when a call is
left.
-/

namespace BarScript

open Machine Exec

/-- A machine, with the number of script functions that are open on it. -/
structure Session where
  machine : Machine
  depth : Nat

/-- What a log tells. -/
inductive Mark where
  /-- An operation is done, and leaves this machine. -/
  | state (m : Machine)
  /-- A loop begins its body once more: how often by now. -/
  | round (n : Nat)
  /-- A script function was entered, and so many are open. -/
  | entered (depth : Nat)
  /-- A script function was left, and so many are open. -/
  | left (depth : Nat)
  /-- An element of a value is to be assigned. -/
  | storing (m : Machine) (base index v : Value)
  /-- A script came to its end with a value. -/
  | gave (m : Machine) (v : Value)

/-- Work on a session that needs fuel. Without enough of it there is no result. -/
def Fueled (α : Type) : Type :=
  Session → Option (List Mark × Except Halt α × Session)

namespace Fueled

variable {α β : Type}

def andThen (x : Fueled α) (f : α → Fueled β) : Fueled β := fun s =>
  match x s with
  | none => none
  | some (log, .error h, s') => some (log, .error h, s')
  | some (log, .ok a, s') =>
    match f a s' with
    | none => none
    | some (log', r, s'') => some (log ++ log', r, s'')

instance : Monad Fueled where
  pure a := fun s => some ([], .ok a, s)
  bind := andThen

def exhausted : Fueled α := fun _ => none

def note (mark : Session → Mark) : Fueled Unit := fun s =>
  some ([mark s], .ok (), s)

def work (x : Exec α) : Fueled α := fun s =>
  match x s.machine with
  | .ok a m => some ([.state m], .ok a, { s with machine := m })
  | .error h m => some ([.state m], .error h, { s with machine := m })

/-- A call: the counter goes up, and when the call is left, in whatever way, it goes down. -/
def nested (x : Fueled α) : Fueled α := fun s =>
  let inside := { s with depth := s.depth + 1 }
  match x inside with
  | none => none
  | some (log, r, s') =>
    let outside := { s' with depth := s'.depth - 1 }
    some (.entered inside.depth :: (log ++ [.left outside.depth]), r, outside)

end Fueled

open Fueled

/-- What a script is run with. -/
structure Rules where
  receiver : Value
  /-- How a counter of rounds goes up. -/
  next : Nat → Nat
  /-- The rounds that one loop may take. -/
  rounds : Nat
  /-- The calls of script functions that may be open at once. -/
  calls : Nat

namespace Fuel

def callOther (r : Rules) (callee : Value) (args : List Value) : Fueled Value :=
  work (callValue ⟨r.receiver, 0, fun _ _ _ => fail (.callDepth r.calls)⟩ callee args)

mutual

def eval (r : Rules) : (fuel : Nat) → Env → Expr → Fueled Value
  | 0, _, _ => exhausted
  | n + 1, env, e =>
    match e with
    | .number x => return .number x
    | .str s => return .str s
    | .bool b => return .bool b
    | .null => return .na
    | .undefined => return .na
    | .ident id => work (readName env id.name)
    | .this => return r.receiver
    | .member base property => do work (readMember (← eval r n env base) property)
    | .index base sub => do
      let base ← eval r n env base
      work (readElement base (← eval r n env sub))
    | .call callee args => do
      let callee ← eval r n env callee
      call r n callee (← evalList r n env args)
    | .unary op arg => do
      let v ← eval r n env arg
      work (heap fun h => h.unary op v)
    | .update op first target => do
      let v ← eval r n env target
      let old ← work (heap fun h => h.number v)
      let new := match op with
        | .increment => old + 1.0
        | .decrement => old - 1.0
      write r n env (.number new) target
      return .number (if first then new else old)
    | .binary op left right => do
      let x ← eval r n env left
      let y ← eval r n env right
      work (heap? fun h => h.binary? op x y)
    | .logical op left right => do
      let x ← eval r n env left
      if ← work (heap fun h => h.settles op x) then return x else eval r n env right
    | .conditional test consequent alternate => do
      let v ← eval r n env test
      if ← work (heap fun h => h.truthy v) then eval r n env consequent
      else eval r n env alternate
    | .assign op target value => do
      let rhs ← eval r n env value
      let v ← match op.binary? with
        | none => pure rhs
        | some bop => do
          let old ← eval r n env target
          work (heap? fun h => h.binary? bop old rhs)
      write r n env v target
      return v
    | .array items => do
      let vs ← evalCurrent r n env items
      work (alloc fun h => h.newArray vs.toArray)
    | .object props => do
      let fields ← evalFields r n env props
      work (alloc fun h => h.newObject (.ofList fields))
    | .func f => return .func f env

def write (r : Rules) : (fuel : Nat) → Env → Value → Expr → Fueled Unit
  | 0, _, _, _ => exhausted
  | n + 1, env, v, e =>
    match e with
    | .ident id => work (assignName env id.name v)
    | .member base property => do work (writeMember (← eval r n env base) property v)
    | .index base sub => do
      let base ← eval r n env base
      let index ← eval r n env sub
      note fun s => .storing s.machine base index v
      work (writeElement base index v)
    | e => work (fail (.invalidTarget (.noPlace e)))

def evalList (r : Rules) : (fuel : Nat) → Env → List Expr → Fueled (List Value)
  | 0, _, _ => exhausted
  | n + 1, env, es =>
    match es with
    | [] => return []
    | e :: rest => do
      let v ← eval r n env e
      return v :: (← evalList r n env rest)

def evalCurrent (r : Rules) : (fuel : Nat) → Env → List Expr → Fueled (List Value)
  | 0, _, _ => exhausted
  | n + 1, env, es =>
    match es with
    | [] => return []
    | e :: rest => do
      let v ← eval r n env e
      let v ← work (heap fun h => h.current v)
      return v :: (← evalCurrent r n env rest)

def evalFields (r : Rules) :
    (fuel : Nat) → Env → List (String × Expr) → Fueled (List (String × Value))
  | 0, _, _ => exhausted
  | n + 1, env, ps =>
    match ps with
    | [] => return []
    | (k, e) :: rest => do
      let v ← eval r n env e
      let v ← work (heap fun h => h.current v)
      return (k, v) :: (← evalFields r n env rest)

def evalOpt (r : Rules) : (fuel : Nat) → Env → Option Expr → Fueled Value
  | 0, _, _ => exhausted
  | n + 1, env, e? =>
    match e? with
    | none => return .na
    | some e => eval r n env e

def call (r : Rules) : (fuel : Nat) → Value → List Value → Fueled Value
  | 0, _, _ => exhausted
  | n + 1, callee, args =>
    match callee with
    | .func f env => fun s =>
      if r.calls ≤ s.depth then work (fail (.callDepth r.calls)) s
      else nested (apply r n f env args) s
    | v => callOther r v args

def apply (r : Rules) : (fuel : Nat) → Func → Env → List Value → Fueled Value
  | 0, _, _, _ => exhausted
  | n + 1, f, env, args => do
    let frame ← work (alloc fun h => h.newFrame (.ofList (bindParams f.params args)))
    match f.body with
    | .expr e => eval r n (frame :: env) e
    | .block stmts => do
      work (hoist (frame :: env) stmts)
      match ← execList r n (frame :: env) stmts with
      | .next => return .na
      | .ret v => return v
      | .breakLoop => work (fail (.strayJump "break"))
      | .continueLoop => work (fail (.strayJump "continue"))

def exec (r : Rules) : (fuel : Nat) → Env → Stmt → Fueled Flow
  | 0, _, _ => exhausted
  | n + 1, env, s =>
    match s with
    | .decl ⟨_, declarators⟩ => do
      declare r n env declarators
      return .next
    | .expr e => do
      let _ ← eval r n env e
      return .next
    | .branch test consequent alternate => do
      let v ← eval r n env test
      if ← work (heap fun h => h.truthy v) then exec r n env consequent
      else match alternate with
        | none => return .next
        | some s => exec r n env s
    | .forLoop init test update body => do
      let env ← work (openFrame env)
      start r n env init
      loop r n 0 env test body update
    | .whileLoop test body => loop r n 0 env (some test) body none
    | .block stmts => do
      let env ← work (openFrame env)
      work (hoist env stmts)
      execList r n env stmts
    | .ret arg => do return .ret (← evalOpt r n env arg)
    | .breakLoop => return .breakLoop
    | .continueLoop => return .continueLoop
    | .func _ => return .next
    | .empty => return .next

def execList (r : Rules) : (fuel : Nat) → Env → List Stmt → Fueled Flow
  | 0, _, _ => exhausted
  | n + 1, env, stmts =>
    match stmts with
    | [] => return .next
    | s :: rest => do
      match ← exec r n env s with
      | .next => execList r n env rest
      | flow => return flow

def declare (r : Rules) : (fuel : Nat) → Env → List Declarator → Fueled Unit
  | 0, _, _ => exhausted
  | n + 1, env, ds =>
    match ds with
    | [] => return ()
    | ⟨target, init, _⟩ :: rest => do
      let v ← evalOpt r n env init
      work (bindPattern env target v)
      declare r n env rest

def start (r : Rules) : (fuel : Nat) → Env → Option ForInit → Fueled Unit
  | 0, _, _ => exhausted
  | n + 1, env, init =>
    match init with
    | none => return ()
    | some (.decl ⟨_, declarators⟩) => declare r n env declarators
    | some (.expr e) => do let _ ← eval r n env e

def holds (r : Rules) : (fuel : Nat) → Env → Option Expr → Fueled Bool
  | 0, _, _ => exhausted
  | n + 1, env, test =>
    match test with
    | none => return true
    | some e => do
      let v ← eval r n env e
      work (heap fun h => h.truthy v)

/-- A loop that has begun its body a number of times: if its test holds, the counter goes
up, and the body is run if the counter is not above the limit. -/
def loop (r : Rules) : (fuel : Nat) → Nat → Env → Option Expr → Stmt → Option Expr → Fueled Flow
  | 0, _, _, _, _, _ => exhausted
  | n + 1, count, env, test, body, update => do
    if ← holds r n env test then
      if r.rounds < r.next count then work (fail (.loopLimit r.rounds))
      else do
        note fun _ => .round (r.next count)
        match ← exec r n env body with
        | .breakLoop => return .next
        | .ret v => return .ret v
        | .next | .continueLoop => do
          let _ ← evalOpt r n env update
          loop r n (r.next count) env test body update
    else return .next

end

def rules (next : Nat → Nat) (receiver : Value) (config : Config) : Rules :=
  ⟨receiver, next, config.maxLoopIterations, config.maxCallDepth⟩

/-- Runs a script once against the context. -/
def run (next : Nat → Nat) (fuel : Nat) (receiver : Value) (p : Program) : Fueled Value := do
  let config ← work (context fun c => c.config)
  let frame ← work (alloc fun h => h.newFrame .empty)
  apply (rules next receiver config) fuel p.root [frame] [.context]

def bar (next : Nat → Nat) (fuel : Nat) (ind : Indicator) (c : Candle) : Fueled Snapshot := do
  work (beginStep c)
  let v ← run next fuel ind.receiver ind.program
  note fun s => .gave s.machine v
  work (heap? fun h => h.collapsed? v)

/-- `Indicator.rows` with fuel and a log. -/
def rows (next : Nat → Nat) (fuel : Nat) (ind : Indicator) : List Candle → Fueled (List Output.Row)
  | [] => return []
  | c :: rest => do
    let v ← bar next fuel ind c
    return (c.ts, v) :: (← rows next fuel ind rest)

end Fuel

end BarScript

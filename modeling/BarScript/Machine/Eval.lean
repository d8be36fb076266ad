import BarScript.Machine.Library

/-!
# Running trees

Expressions and statements are run by recursion on the tree. Two things leave
the tree, and each has its own bound: a loop runs on the rounds that are left
to it, and a call of a script function runs on the calls that may still be
opened. So every step comes to an end, and no measure of time is needed.
-/

namespace BarScript

/-- What a tree is run with. -/
structure Host where
  /-- What the script sees as `this`. -/
  receiver : Value
  /-- The rounds that one loop may take. -/
  rounds : Nat
  /-- Calls a script function in the frames it was made in. -/
  call : Func → Env → List Value → Exec Value

/-- How a statement ends. -/
inductive Flow where
  | next
  | ret (v : Value)
  | breakLoop
  | continueLoop

namespace Machine

/-! ## Reading and writing -/

def freeName? : String → Option Value
  | "NaN" => some (.number Number.nan)
  | "Infinity" => some (.number Number.infinity)
  | "undefined" => some .na
  | "na" => some .na
  | name =>
    match Namespace.ofName? name with
    | some .data => none
    | some ns => some (.group ns)
    | none => none

def readName (env : Env) (name : String) : Exec Value := do
  match ← Exec.heap fun h => h.lookup? env name with
  | some v => return v
  | none =>
    match freeName? name with
    | some v => return v
    | none => Exec.fail (.unknownIdentifier name)

/-- Assigns to a name in the innermost frame that has it. -/
def assignName (env : Env) (name : String) (v : Value) : Exec Unit := do
  match ← Exec.heap fun h => h.frameOf? env name with
  | some r => Exec.modifyHeap fun h => h.define r name v
  | none => Exec.fail (.unknownIdentifier name)

/-- Declares a name in the innermost frame. -/
def defineName (env : Env) (name : String) (v : Value) : Exec Unit :=
  match env with
  | [] => return ()
  | r :: _ => Exec.modifyHeap fun h => h.define r name v

def openFrame (env : Env) : Exec Env := do
  let r ← Exec.alloc fun h => h.newFrame .empty
  return r :: env

def contextMember (c : Context) : String → Value
  | "let" => .bucket .let
  | "const" => .bucket .const
  | "init" => .contextFn .init
  | "param" => .contextFn .param
  | "precision" => .contextFn .precision
  | "idx" => .number c.barIndex.toFloat
  | name =>
    match Namespace.ofName? name with
    | some ns => .group ns
    | none => .na

/-- A field of a value. What has no fields has none. -/
def member (m : Machine) (base : Value) (property : String) : Value :=
  match m.heap.settle base with
  | .context => contextMember m.context property
  | .group .data => m.context.dataSeries property
  | .group ns => .native ns property
  | .bucket b => m.context.slot b property
  | .object r => ((m.heap.object r).get? property).getD .na
  | .array r => if property == "length" then .number (m.heap.array r).size.toFloat else .na
  | .str s => if property == "length" then .number s.length.toFloat else .na
  | _ => .na

def readMember (base : Value) (property : String) : Exec Value := do
  return (← get).member base property

/-- Reads an element: of a series some bars ago, of an array or a text by place,
of an object by key. -/
def readElement (base index : Value) : Exec Value := do
  match base with
  | .series r offset =>
    Exec.heap fun h =>
      match h.position? index with
      | some i => h.seriesGet r offset i
      | none => .na
  | .array r =>
    Exec.heap fun h =>
      match h.position? index with
      | some i => (h.array r).getD i .na
      | none => .na
  | .object r =>
    let key ← Exec.heap? fun h => h.display? (h.current index)
    Exec.heap fun h => ((h.object r).get? key).getD .na
  | .str s =>
    Exec.heap fun h =>
      match (h.position? index).bind fun i => s.toList[i]? with
      | some c => .str c.toString
      | none => .na
  | _ => return .na

def writeMember (base : Value) (property : String) (v : Value) : Exec Unit := do
  match base with
  | .bucket b => storeSlot b property v
  | .object r =>
    Exec.modifyHeap fun h =>
      let w := h.current v
      h.modifyObject r fun d => d.insert property w
  | _ => Exec.fail (.invalidTarget (.setField property base.kind))

/-- Whether a value is a view of a history. -/
def showsHistory (r : Ref) : Value → Bool
  | .series s _ => s == r
  | _ => false

/-- An array with an element set, made longer if need be. -/
def setElement (a : Array Value) (i : Nat) (v : Value) : Array Value :=
  if i < a.size then a.setIfInBounds i v
  else (a ++ Array.replicate (i - a.size) Value.na).push v

/-- A history with a value set. One that has no values takes its first. -/
def setBar (s : History Value) (barsAgo : Nat) (v : Value) : History Value :=
  if s.reaches barsAgo then s.set barsAgo v
  else if barsAgo == 0 then s.setCurrent v
  else s

def writeElement (base index v : Value) : Exec Unit := do
  let x ← Exec.heap fun h => h.number index
  let position ← Exec.heap fun h => h.position? index
  match base, position with
  | .series r offset, some i =>
    if showsHistory r v then throw .sharedWrite
    Exec.modifyHeap fun h =>
      let w := h.current v
      h.modifyHistory r fun s => setBar s (offset + i) w
  | .array r, some i =>
    if maxLength ≤ i then Exec.fail (.invalidTarget (.indexLimit x))
    Exec.modifyHeap fun h =>
      let w := h.current v
      h.modifyArray r fun a => setElement a i w
  | .object r, _ =>
    let key ← Exec.heap? fun h => h.display? (h.current index)
    Exec.modifyHeap fun h =>
      let w := h.current v
      h.modifyObject r fun d => d.insert key w
  | _, _ => Exec.fail (.invalidTarget (.indexInto base.kind))

def bindPattern (env : Env) (target : Pattern) (v : Value) : Exec Unit := do
  match target with
  | .ident id => defineName env id.name v
  | .object props =>
    props.forM fun (key, id) => do defineName env id.name (← readMember v key)
  | .array items =>
    items.zipIdx.forM fun (item, i) => do
      match item with
      | some id => defineName env id.name (← readElement v (.number i.toFloat))
      | none => return ()

/-- Declares the functions among statements, before any of them runs. -/
def hoist (env : Env) : List Stmt → Exec Unit
  | [] => return ()
  | .func f :: rest => do
    match f.name with
    | some id => defineName env id.name (.func f env)
    | none => return ()
    hoist env rest
  | _ :: rest => hoist env rest

/-! ## Calls and loops -/

def callValue (host : Host) (callee : Value) (args : List Value) : Exec Value := do
  match callee with
  | .func f env => host.call f env args
  | .native ns name => Library.call ns name args
  | .contextFn .init => init (Library.arg args 0) (Library.arg args 1) (Library.arg args 2)
  | .contextFn .param =>
    match ← Exec.heap fun h => (args[2]?).bind h.text? with
    | some id => param (Library.arg args 0) (Library.arg args 1) id
    | none => Exec.fail (.invalidArgument "param" .noParamId)
  | .contextFn .precision => precision (Library.arg args 0)
  | v => Exec.fail (.notCallable (← Exec.heap? fun h => h.debug? v))

/-- A loop: tests, runs its body and steps on, for as many rounds as are left. -/
def loop (limit : Nat) (test : Exec Bool) (body : Exec Flow) (step : Exec Unit) :
    (left : Nat) → Exec Flow
  | 0 => do
    if ← test then Exec.fail (.loopLimit limit) else return .next
  | n + 1 => do
    if ← test then
      match ← body with
      | .breakLoop => return .next
      | .ret v => return .ret v
      | .next | .continueLoop =>
        step
        loop limit test body step n
    else return .next

end Machine

open Machine

mutual

def Expr.eval (host : Host) (env : Env) : Expr → Exec Value
  | .number x => return .number x
  | .str s => return .str s
  | .bool b => return .bool b
  | .null => return .na
  | .undefined => return .na
  | .ident id => readName env id.name
  | .this => return host.receiver
  | .member base property => do readMember (← base.eval host env) property
  | .index base sub => do
    let base ← base.eval host env
    readElement base (← sub.eval host env)
  | .call callee args => do
    let callee ← callee.eval host env
    callValue host callee (← Expr.evalList host env args)
  | .unary op arg => do
    let v ← arg.eval host env
    Exec.heap fun h => h.unary op v
  | .update op first target => do
    let v ← target.eval host env
    let old ← Exec.heap fun h => h.number v
    let new := match op with
      | .increment => old + 1.0
      | .decrement => old - 1.0
    target.write host env (.number new)
    return .number (if first then new else old)
  | .binary op left right => do
    let l ← left.eval host env
    let r ← right.eval host env
    Exec.heap? fun h => h.binary? op l r
  | .logical op left right => do
    let l ← left.eval host env
    if ← Exec.heap fun h => h.settles op l then return l else right.eval host env
  | .conditional test consequent alternate => do
    let v ← test.eval host env
    if ← Exec.heap fun h => h.truthy v then consequent.eval host env else alternate.eval host env
  | .assign op target value => do
    let rhs ← value.eval host env
    let v ← match op.binary? with
      | none => pure rhs
      | some bop => do
        let old ← target.eval host env
        Exec.heap? fun h => h.binary? bop old rhs
    target.write host env v
    return v
  | .array items => do
    let vs ← Expr.evalCurrent host env items
    Exec.alloc fun h => h.newArray vs.toArray
  | .object props => do
    let fields ← Expr.evalFields host env props
    Exec.alloc fun h => h.newObject (.ofList fields)
  | .func f => return .func f env

/-- Assigns to an expression. Its parts are evaluated again. -/
def Expr.write (host : Host) (env : Env) (v : Value) : Expr → Exec Unit
  | .ident id => assignName env id.name v
  | .member base property => do writeMember (← base.eval host env) property v
  | .index base sub => do
    let base ← base.eval host env
    writeElement base (← sub.eval host env) v
  | e => Exec.fail (.invalidTarget (.noPlace e))

def Expr.evalList (host : Host) (env : Env) : List Expr → Exec (List Value)
  | [] => return []
  | e :: rest => do
    let v ← e.eval host env
    return v :: (← Expr.evalList host env rest)

/-- Evaluates expressions in order, each to its current value. -/
def Expr.evalCurrent (host : Host) (env : Env) : List Expr → Exec (List Value)
  | [] => return []
  | e :: rest => do
    let v ← e.eval host env
    let v ← Exec.heap fun h => h.current v
    return v :: (← Expr.evalCurrent host env rest)

/-- Evaluates properties in order, each to its current value. -/
def Expr.evalFields (host : Host) (env : Env) : List (String × Expr) → Exec (List (String × Value))
  | [] => return []
  | (k, e) :: rest => do
    let v ← e.eval host env
    let v ← Exec.heap fun h => h.current v
    return (k, v) :: (← Expr.evalFields host env rest)

/-- Evaluates an expression that may be missing. -/
def Expr.evalOpt (host : Host) (env : Env) : Option Expr → Exec Value
  | none => return .na
  | some e => e.eval host env

def Stmt.exec (host : Host) (env : Env) : Stmt → Exec Flow
  | .decl ⟨_, declarators⟩ => do
    Declarator.declare host env declarators
    return .next
  | .expr e => do
    let _ ← e.eval host env
    return .next
  | .branch test consequent alternate => do
    let v ← test.eval host env
    if ← Exec.heap fun h => h.truthy v then consequent.exec host env
    else match alternate with
      | none => return .next
      | some s => s.exec host env
  | .forLoop init test update body => do
    let env ← openFrame env
    match init with
    | none => pure ()
    | some (.decl ⟨_, declarators⟩) => Declarator.declare host env declarators
    | some (.expr e) => do let _ ← e.eval host env
    let holds : Exec Bool := match test with
      | none => return true
      | some e => do
        let v ← e.eval host env
        Exec.heap fun h => h.truthy v
    let step : Exec Unit := do let _ ← Expr.evalOpt host env update
    loop host.rounds holds (body.exec host env) step host.rounds
  | .whileLoop test body =>
    let holds : Exec Bool := do
      let v ← test.eval host env
      Exec.heap fun h => h.truthy v
    loop host.rounds holds (body.exec host env) (return ()) host.rounds
  | .block stmts => do
    let env ← openFrame env
    hoist env stmts
    Stmt.execList host env stmts
  | .ret arg => do return .ret (← Expr.evalOpt host env arg)
  | .breakLoop => return .breakLoop
  | .continueLoop => return .continueLoop
  | .func _ => return .next
  | .empty => return .next

def Stmt.execList (host : Host) (env : Env) : List Stmt → Exec Flow
  | [] => return .next
  | s :: rest => do
    match ← s.exec host env with
    | .next => Stmt.execList host env rest
    | flow => return flow

/-- Declares the targets of declarators in order. -/
def Declarator.declare (host : Host) (env : Env) : List Declarator → Exec Unit
  | [] => return ()
  | ⟨target, init, _⟩ :: rest => do
    let v ← Expr.evalOpt host env init
    bindPattern env target v
    Declarator.declare host env rest

end

namespace Machine

/-- The parameters of a function with their values; a missing one is `na`. -/
def bindParams : List Ident → List Value → List (String × Value)
  | [], _ => []
  | id :: ids, [] => (id.name, .na) :: bindParams ids []
  | id :: ids, v :: vs => (id.name, v) :: bindParams ids vs

/-- Runs the body of a function in a frame of its own. -/
def apply (host : Host) (f : Func) (env : Env) (args : List Value) : Exec Value := do
  let r ← Exec.alloc fun h => h.newFrame (.ofList (bindParams f.params args))
  let env := r :: env
  match f.body with
  | .expr e => e.eval host env
  | .block stmts =>
    hoist env stmts
    match ← Stmt.execList host env stmts with
    | .next => return .na
    | .ret v => return v
    | .breakLoop => Exec.fail (.strayJump "break")
    | .continueLoop => Exec.fail (.strayJump "continue")

/-- Calls a script function while some more calls may be opened. -/
def callWithin (receiver : Value) (rounds limit : Nat) :
    (left : Nat) → Func → Env → List Value → Exec Value
  | 0, _, _, _ => Exec.fail (.callDepth limit)
  | n + 1, f, env, args =>
    apply ⟨receiver, rounds, callWithin receiver rounds limit n⟩ f env args

/-- Runs a script once against the context. -/
def run (receiver : Value) (p : Program) : Exec Value := do
  let config ← Exec.context fun c => c.config
  let rounds := config.maxLoopIterations
  let limit := config.maxCallDepth
  let r ← Exec.alloc fun h => h.newFrame .empty
  apply ⟨receiver, rounds, callWithin receiver rounds limit limit⟩ p.root [r] [.context]

end Machine

end BarScript

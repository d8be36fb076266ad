import BarScript.Compile.Scope

/-!
# Slotted scripts

Every name that a script declares becomes a slot on the context, a history that
is carried from bar to bar. Three forms make up the result.

* `root.let.s = root.init(root.let.s, e)` declares the slot `s`.
* `root.let.s[0]` reads its current value; a subscript that the script writes
  reads further back.
* `ns.f(root.param(e, k, "p0"), …, "_ta0")` calls a function of a namespace: each
  argument comes with its offset and a key of its own, and a call into the
  primary namespace ends in a key for the state of that call.

Names of loop headers, parameters and what is read off the context are plain
locals and stay. Inside functions a returned value is rounded by
`root.precision`.
-/

namespace BarScript

/-! ## Options -/

/-- What happens to a construct that has no form as a slot. -/
inductive Policy where
  /-- The script does not compile. -/
  | strict
  /-- The construct stays as it is. -/
  | passThrough
deriving Repr, DecidableEq

/-- The options of a compilation. -/
structure Options where
  unsupported : Policy := .strict
  /-- The namespace whose calls keep state from bar to bar. -/
  primary : String := "ta"
  /-- The namespaces known by name in every script. -/
  analysis : List String := ["ta", "math"]
deriving Repr, DecidableEq

/-- Whether a namespace is known by name in every script. -/
def Options.isAnalysis (o : Options) (name : String) : Bool :=
  o.analysis.contains name

namespace Slotted

/-- What does not change during a compilation. -/
structure Setting where
  options : Options
  /-- The name of the context. -/
  root : String

/-- The names met so far, and how often each form was used. -/
structure Progress where
  scopes : Scopes
  declarations : Nat := 0
  reads : Nat := 0
  calls : Nat := 0
  passedThrough : Nat := 0

/-- Computations that meet names and may refuse a construct. -/
abbrev Pass := StateT Progress (Except CompileError)

/-- How a name is used. -/
inductive Role where
  /-- For its current value. -/
  | value
  /-- In front of a subscript, for its history. -/
  | base
deriving DecidableEq

/-- Whether a name stands for a number that is not finite. -/
def isNumberName (name : String) : Bool :=
  name == "NaN" || name == "Infinity"

/-! ## Forms -/

namespace Setting

variable (c : Setting)

def context : Expr := .named c.root

def contextCall (name : String) (args : List Expr) : Expr :=
  .call (.member c.context name) args

def slot (b : Binding) : Expr :=
  .member (.member c.context b.bucket.name) b.slot

def current (b : Binding) : Expr :=
  .index (c.slot b) (.number 0.0)

def declare (b : Binding) (init : Expr) : Stmt :=
  .expr (.assign .assign (c.slot b) (c.contextCall "init" [c.slot b, init]))

def param (series offset : Expr) (id : String) : Expr :=
  c.contextCall "param" [series, offset, .str id]

end Setting

/-! ## Steps -/

def note (g : Scopes → Scopes) : Pass Unit :=
  modify fun p => { p with scopes := g p.scopes }

def enter (kind : ScopeKind) : Pass Unit :=
  note fun s => (s.push kind).2

def leave : Pass Unit :=
  note Scopes.pop

def bindAll (ids : List Ident) : Pass Unit :=
  note fun s => ids.foldl (fun s id => s.bind id.name) s

/-- Refuses a construct, or keeps it as it is. -/
def unsupported (c : Setting) (construct : Construct) (pos : Position) (kept : α) : Pass α :=
  match c.options.unsupported with
  | .strict => throw (.unsupported construct pos)
  | .passThrough => do
    modify fun p => { p with passedThrough := p.passedThrough + 1 }
    return kept

/-- What a name refers to. The analysis namespaces are known even if nothing
binds them. -/
def resolve (c : Setting) (id : Ident) : Pass Resolution := do
  match (← get).scopes.resolve? id.name with
  | some r => return r
  | none =>
    if c.options.isAnalysis id.name then return .contextBound
    else throw (.unresolved id.name id.pos)

def read (c : Setting) (b : Binding) : Pass Expr := do
  modify fun p => { p with reads := p.reads + 1 }
  return c.current b

def identifier (c : Setting) (id : Ident) (role : Role) : Pass Expr := do
  if isNumberName id.name then return .ident id
  match ← resolve c id with
  | .slot b =>
    match role with
    | .base => return c.slot b
    | .value => read c b
  | _ => return .ident id

/-- A name that is assigned to. What the context supplies cannot be. -/
def assignedName (c : Setting) (id : Ident) : Pass Expr := do
  match ← resolve c id with
  | .slot _ | .loop => identifier c id .value
  | _ => unsupported c (.assignToContextName id.name) id.pos (.ident id)

/-- The namespace that a callee belongs to: `ns.f` where the context supplies
`ns`, or `root.ns.f`. -/
def namespaceOf (c : Setting) (s : Scopes) : Expr → Option String
  | .member (.ident id) _ =>
    match s.resolve? id.name with
    | some .contextBound => some id.name
    | some _ => none
    | none => if c.options.isAnalysis id.name then some id.name else none
  | .member (.member (.ident id) ns) _ => if id.name == c.root then some ns else none
  | _ => none

def noteCall : Pass Unit :=
  modify fun p => { p with calls := p.calls + 1 }

/-- The key that ends a call into the primary namespace. -/
def callKey (c : Setting) (ns : String) : Pass (List Expr) := do
  if ns == c.options.primary then
    let (id, scopes) := (← get).scopes.callId
    modify fun p => { p with scopes }
    return [.str id]
  else return []

/-- An argument with its offset, under a key of its own. -/
def keyed (c : Setting) (series offset : Expr) : Pass Expr := do
  let (id, scopes) := (← get).scopes.paramId
  modify fun p => { p with scopes }
  return c.param series offset id

/-- The declaration of a name in the innermost scope. -/
def declared (c : Setting) (kind : DeclKind) (name : String) (init : Expr) : Pass Stmt := do
  let (b, scopes) := (← get).scopes.declare name kind.bucket
  modify fun p => { p with scopes, declarations := p.declarations + 1 }
  return c.declare b init

/-- The first declarator that binds more than one name. -/
def patternPos? : List Declarator → Option Position
  | [] => none
  | ⟨.ident _, _, _⟩ :: rest => patternPos? rest
  | ⟨_, _, pos⟩ :: _ => some pos

/-- Where the header of a loop binds more than one name at once. -/
def headerPatternPos? : Option ForInit → Option Position
  | some (.decl ⟨_, declarators⟩) => patternPos? declarators
  | _ => none

end Slotted

open Slotted

mutual

/-- The slotted form of an expression. The role matters to names only. -/
def Expr.slotted (c : Setting) (role : Role) : Expr → Pass Expr
  | .ident id => identifier c id role
  | .member base property => return .member (← base.slotted c .value) property
  | .index base sub => do
    let sub ← sub.slotted c .value
    return .index (← base.slotted c .base) sub
  | .call callee args => do
    match namespaceOf c (← get).scopes callee with
    | some ns =>
      noteCall
      let args ← Expr.slottedParams c args
      return .call callee (args ++ (← callKey c ns))
    | none =>
      let callee ← callee.slotted c .value
      return .call callee (← Expr.listSlotted c args)
  | .unary op arg => return .unary op (← arg.slotted c .value)
  | .update op first target => return .update op first (← target.slottedTarget c)
  | .binary op left right =>
    return .binary op (← left.slotted c .value) (← right.slotted c .value)
  | .logical op left right =>
    return .logical op (← left.slotted c .value) (← right.slotted c .value)
  | .conditional test consequent alternate =>
    return .conditional (← test.slotted c .value) (← consequent.slotted c .value)
      (← alternate.slotted c .value)
  | .assign op target value =>
    return .assign op (← target.slottedTarget c) (← value.slotted c .value)
  | .array items => return .array (← Expr.listSlotted c items)
  | .object props => return .object (← Expr.propSlotted c props)
  | .func f => return .func (← f.slotted c)
  | .number x => return .number x
  | .str s => return .str s
  | .bool b => return .bool b
  | .null => return .null
  | .undefined => return .undefined
  | .this => return .this

/-- The slotted form of what is assigned to. -/
def Expr.slottedTarget (c : Setting) : Expr → Pass Expr
  | .ident id => assignedName c id
  | .member base property => return .member (← base.slotted c .value) property
  | .index base sub => do
    let sub ← sub.slotted c .value
    return .index (← base.slotted c .base) sub
  | e => unsupported c .assignTarget (e.pos?.getD {}) e

def Expr.listSlotted (c : Setting) : List Expr → Pass (List Expr)
  | [] => return []
  | e :: rest => return (← e.slotted c .value) :: (← Expr.listSlotted c rest)

/-- The slotted forms of the arguments of a namespace call. Functions are handed
over as they are; of `x[k]` the offset is handed over apart. -/
def Expr.slottedParams (c : Setting) : List Expr → Pass (List Expr)
  | [] => return []
  | e :: rest => do
    let e ← match e with
      | .func f => .func <$> f.slotted c
      | .ident id => do
        match ← resolve c id with
        | .function => pure (.ident id)
        | .slot b => keyed c (c.slot b) .undefined
        | _ => keyed c (← identifier c id .value) .undefined
      | .index (.ident id) sub => do
        let sub ← sub.slotted c .value
        let base ← identifier c id .base
        if isNumberName id.name then keyed c (.index base sub) .undefined
        else keyed c base sub
      | e => do keyed c (← e.slotted c .value) .undefined
    return e :: (← Expr.slottedParams c rest)

def Expr.propSlotted (c : Setting) : List (String × Expr) → Pass (List (String × Expr))
  | [] => return []
  | (k, e) :: rest => return (k, ← e.slotted c .value) :: (← Expr.propSlotted c rest)

def Expr.optSlotted (c : Setting) : Option Expr → Pass (Option Expr)
  | none => return none
  | some e => return some (← e.slotted c .value)

/-- The slotted form of a function inside the script. -/
def Func.slotted (c : Setting) : Func → Pass Func
  | ⟨name, params, body, style, pos⟩ => do
    enter .function
    bindAll params
    let body ← match body with
      | .block stmts => .block <$> Stmt.listSlotted c stmts
      | .expr e => (fun v => .expr (c.contextCall "precision" [v])) <$> e.slotted c .value
    leave
    return ⟨name, params, body, style, pos⟩

/-- The slotted form of a statement. `inner` says that the statement is the body
of a branch or loop: a block then opens no statement of its own. -/
def Stmt.slotted (c : Setting) (inner : Bool) : Stmt → Pass (List Stmt)
  | .decl ⟨kind, declarators⟩ => Declarator.listSlotted c kind declarators
  | .expr e => return [.expr (← e.slotted c .value)]
  | .branch test consequent alternate => do
    let test ← test.slotted c .value
    enter .branch
    let consequent ← consequent.slotted c true
    leave
    let alternate ← match alternate with
      | none => pure none
      | some s => do
        enter .otherwise
        let stmts ← s.slotted c true
        leave
        pure (some (.block stmts))
    return [.branch test (.block consequent) alternate]
  | .forLoop init test update body => do
    enter .forLoop
    let loop ← match headerPatternPos? init with
      | some pos => unsupported c .patternInLoopHeader pos (.forLoop init test update body)
      | none => do
        let init ← match init with
          | none => pure none
          | some (.decl ⟨kind, declarators⟩) =>
            (fun ds => some (.decl ⟨kind, ds⟩)) <$> Declarator.headerSlotted c declarators
          | some (.expr e) => (some ∘ .expr) <$> e.slotted c .value
        let test ← Expr.optSlotted c test
        let update ← Expr.optSlotted c update
        let body ← body.slotted c true
        pure (.forLoop init test update (.block body))
    leave
    return [loop]
  | .whileLoop test body => do
    enter .whileLoop
    let test ← test.slotted c .value
    let body ← body.slotted c true
    leave
    return [.whileLoop test (.block body)]
  | .block stmts => do
    let stmts ← Stmt.listSlotted c stmts
    return if inner then stmts else [.block stmts]
  | .ret none => return [.ret none]
  | .ret (some e) => do
    let v ← e.slotted c .value
    if (← get).scopes.inFunction then return [.ret (some (c.contextCall "precision" [v]))]
    else return [.ret (some v)]
  | .func f => return [.func (← f.slotted c)]
  | .breakLoop => return [.breakLoop]
  | .continueLoop => return [.continueLoop]
  | .empty => return [.empty]

def Stmt.listSlotted (c : Setting) : List Stmt → Pass (List Stmt)
  | [] => return []
  | s :: rest => return (← s.slotted c false) ++ (← Stmt.listSlotted c rest)

/-- The slotted form of declarators. What is read off the context stays a plain
local; a single name becomes a slot, declared after its value. -/
def Declarator.listSlotted (c : Setting) (kind : DeclKind) : List Declarator → Pass (List Stmt)
  | [] => return []
  | ⟨target, init, pos⟩ :: rest => do
    let kept := Stmt.decl ⟨kind, [⟨target, init, pos⟩]⟩
    let read := match init with
      | some e => e.isContextRead c.root
      | none => false
    let stmt ←
      if read then do
        bindAll target.boundNames
        pure kept
      else match target with
        | .ident id => do
          let init ← match init with
            | none => pure .undefined
            | some e => do
              let plain := e.slotted c .value
              match e with
              | .index (.ident tuple) (.number i) => do
                let s := (← get).scopes
                if s.isElement id.name && s.isTemp tuple.name then
                  let b ← s.binding tuple.name tuple.pos
                  pure (.index (← Slotted.read c b) (.number i))
                else plain
              | _ => plain
          declared c kind id.name init
        | _ => do
          let stmt ← unsupported c .patternOfPlainValue pos kept
          bindAll target.boundNames
          pure stmt
    return stmt :: (← Declarator.listSlotted c kind rest)

/-- The slotted form of the declarators of a loop header. A variable is known
from the declarator after its own on. -/
def Declarator.headerSlotted (c : Setting) : List Declarator → Pass (List Declarator)
  | [] => return []
  | ⟨target, init, pos⟩ :: rest => do
    let init ← Expr.optSlotted c init
    note fun s => target.boundNames.foldl (fun s id => s.addLoopVar id.name) s
    return ⟨target, init, pos⟩ :: (← Declarator.headerSlotted c rest)

end

/-- The slotted form of the body of a script. -/
def FuncBody.slotted (c : Setting) : FuncBody → Pass FuncBody
  | .block stmts => return .block (← Stmt.listSlotted c stmts)
  | .expr e => return .expr (← e.slotted c .value)

/-- The slotted form of a script in normal form, from the names met in it. -/
def Program.slotted (p : Program) (options : Options) (scopes : Scopes) :
    Except CompileError (Program × Progress) := do
  let c : Setting := ⟨options, scopes.root⟩
  let pass : Pass FuncBody := do
    enter .global
    let body ← p.root.body.slotted c
    leave
    return body
  let (body, progress) ← pass.run { scopes }
  return (⟨{ p.root with body }⟩, progress)

end BarScript

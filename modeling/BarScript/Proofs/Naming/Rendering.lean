import BarScript.Proofs.Passes.Slotted

/-!
# How scripts are rendered with slots

Slotting goes through a script once, from left to right. What it makes of a construct
depends on the scopes that are open there, and on the way it hands out numbers for
scopes and keys for calls and arguments. Here this is said as a relation between a
script and its slotted form. The open scopes are an index of it, and so is a log of all
that is handed out, in order.

Two things are left open and are fixed where the relation is used: what a use of a name
becomes, and which callees belong to a namespace.
-/

namespace BarScript

open Slotted

namespace Naming

/-! ## Open scopes -/

def inner (g : Frame → Frame) : List Frame → List Frame
  | [] => []
  | f :: rest => g f :: rest

def handTo (F : List Frame) (ids : List Ident) : List Frame :=
  ids.foldl (fun F id => inner (fun f => { f with bound := f.bound.insert id.name }) F) F

/-- Adds variables of a loop header to the innermost scope. -/
def countIn (F : List Frame) (ids : List Ident) : List Frame :=
  ids.foldl (fun F id => inner (fun f => { f with loopVars := f.loopVars.insert id.name }) F) F

/-- The slot that the innermost scope has for a name. -/
def slotIn (F : List Frame) (name : String) (bucket : Bucket) : Binding :=
  let (scope, serial) : ScopeKind × Nat := match F with
    | [] => (.global, 0)
    | f :: _ => (f.kind, f.serial)
  { name, slot := Scopes.slotName scope serial name, bucket, scope, serial }

/-- Declares a slot in the innermost scope. -/
def declareIn (F : List Frame) (b : Binding) : List Frame :=
  inner (fun f => { f with vars := (b.name, b) :: f.vars }) F

/-! ## What is handed out -/

/-- All that a slotting hands out, in order, and how many constructs it keeps as they
are. -/
structure Log where
  /-- The scopes entered: their kinds and numbers. -/
  scopes : List (ScopeKind × Nat) := []
  /-- The keys of calls. -/
  calls : List String := []
  /-- The keys of arguments. -/
  params : List String := []
  raw : Nat := 0

namespace Log

def append (l l' : Log) : Log :=
  ⟨l.scopes ++ l'.scopes, l.calls ++ l'.calls, l.params ++ l'.params, l.raw + l'.raw⟩

instance : Append Log := ⟨append⟩

theorem append_eq (l l' : Log) :
    l ++ l' = ⟨l.scopes ++ l'.scopes, l.calls ++ l'.calls, l.params ++ l'.params, l.raw + l'.raw⟩ :=
  rfl

@[simp] theorem nil_append (l : Log) : ({} : Log) ++ l = l := by
  simp [append_eq]

@[simp] theorem append_nil (l : Log) : l ++ ({} : Log) = l := by
  simp [append_eq]

end Log

/-- What is left open: the uses of names, and the namespaces of callees. -/
structure Reading where
  /-- What a use of a name becomes in open scopes. -/
  use : List Frame → Role → Ident → Expr → Prop
  /-- The namespace that a callee belongs to, if it belongs to one. -/
  space : List Frame → Expr → Option String → Prop
  /-- Whether a name is one of a function, which is handed over as it is. -/
  function : List Frame → Ident → Prop
  /-- Which names may be assigned to. -/
  assigned : List Frame → Ident → Prop := fun _ _ => True
  /-- Which headers of loops are rendered. -/
  header : Option ForInit → Prop := fun _ => True
  /-- Which initial values are kept in slots. -/
  declared : Option Expr → Prop := fun _ => True
  /-- Which targets are kept as they are, where anything is. -/
  raw : List Frame → Expr → Prop := fun _ _ => True

/-- Whether an expression has no parts and is no name. -/
def isAtom : Expr → Bool
  | .number _ | .str _ | .bool _ | .null | .undefined | .this => true
  | _ => false

def isStep : Stmt → Bool
  | .ret none | .breakLoop | .continueLoop | .empty => true
  | _ => false

/-- The scope of a kind and number, opened inside of others. -/
def enterIn (kind : ScopeKind) (n : Nat) (F : List Frame) : List Frame :=
  { kind, serial := n } :: F

variable (c : Setting) (R : Reading)

/-- The key that ends a call: there is one if the namespace is the primary one. -/
inductive Keys (ns : String) : List Expr → Log → Prop
  | primary (h : ns = c.options.primary) : Keys ns [.str k] { calls := [k] }
  | other (h : ns ≠ c.options.primary) : Keys ns [] {}

/-! ## The relation -/

mutual

/-- Expressions in open scopes. -/
inductive Renders : List Frame → Role → Expr → Expr → Log → Prop
  | atom (h : isAtom e = true) : Renders F role e e {}
  | name (h : R.use F role x e') : Renders F role (.ident x) e' {}
  | member (h : Renders F .value base base' l) :
    Renders F role (.member base property) (.member base' property) l
  | index (hs : Renders F .value sub sub' l) (hb : Renders F .base base base' l') :
    Renders F role (.index base sub) (.index base' sub') (l ++ l')
  /-- A call of a namespace function: the arguments are wrapped, and a key may end
  them. -/
  | spaceCall (hns : R.space F callee (some ns))
    (ha : RendersParams F args args' l) (hk : Keys c ns keys l') :
    Renders F role (.call callee args) (.call callee (args' ++ keys)) (l ++ l')
  | call (hns : R.space F callee none)
    (hc : Renders F .value callee callee' l) (ha : RendersList F args args' l') :
    Renders F role (.call callee args) (.call callee' args') (l ++ l')
  | unary (h : Renders F .value arg arg' l) : Renders F role (.unary op arg) (.unary op arg') l
  | update (h : RendersTarget F t t' l) :
      Renders F role (.update op first t) (.update op first t') l
  | binary (hl : Renders F .value left left' l) (hr : Renders F .value right right' l') :
    Renders F role (.binary op left right) (.binary op left' right') (l ++ l')
  | logical (hl : Renders F .value left left' l) (hr : Renders F .value right right' l') :
    Renders F role (.logical op left right) (.logical op left' right') (l ++ l')
  | conditional (ht : Renders F .value t t' l₁) (he : Renders F .value e e' l₂)
    (ha : Renders F .value a a' l₃) :
    Renders F role (.conditional t e a) (.conditional t' e' a') (l₁ ++ (l₂ ++ l₃))
  | assign (ht : RendersTarget F t t' l) (hv : Renders F .value v v' l') :
    Renders F role (.assign op t v) (.assign op t' v') (l ++ l')
  | array (h : RendersList F es es' l) : Renders F role (.array es) (.array es') l
  | object (h : RendersProps F ps ps' l) : Renders F role (.object ps) (.object ps') l
  | func (h : RendersFunc F f f' l) : Renders F role (.func f) (.func f') l

inductive RendersTarget : List Frame → Expr → Expr → Log → Prop
  | name (ha : R.assigned F x) (h : R.use F .value x t') : RendersTarget F (.ident x) t' {}
  | member (h : Renders F .value base base' l) :
    RendersTarget F (.member base property) (.member base' property) l
  | index (hs : Renders F .value sub sub' l) (hb : Renders F .base base base' l') :
    RendersTarget F (.index base sub) (.index base' sub') (l ++ l')
  | raw (h : c.options.unsupported = .passThrough) (hraw : R.raw F e) :
    RendersTarget F e e { raw := 1 }

inductive RendersList : List Frame → List Expr → List Expr → Log → Prop
  | nil : RendersList F [] [] {}
  | cons (h : Renders F .value e e' l) (hs : RendersList F es es' l') :
    RendersList F (e :: es) (e' :: es') (l ++ l')

inductive RendersProps : List Frame → List (String × Expr) → List (String × Expr) → Log → Prop
  | nil : RendersProps F [] [] {}
  | cons (h : Renders F .value e e' l) (hs : RendersProps F ps ps' l') :
    RendersProps F ((k, e) :: ps) ((k, e') :: ps') (l ++ l')

/-- Arguments of namespace functions. A function is handed over as it is; everything
else is wrapped once, under a key of its own, and an offset that is written out goes
with it. -/
inductive RendersParam : List Frame → Expr → Expr → Log → Prop
  | func (h : RendersFunc F f f' l) : RendersParam F (.func f) (.func f') l
  | function (h : R.function F x) : RendersParam F (.ident x) (.ident x) {}
  | series (h : R.use F .base x series) :
    RendersParam F (.ident x) (c.param series .undefined k) { params := [k] }
  | offset (hs : Renders F .value sub sub' l) (h : R.use F .base x series) :
    RendersParam F (.index (.ident x) sub) (c.param series sub' k) (l ++ { params := [k] })
  | value (h : Renders F .value e e' l) :
    RendersParam F e (c.param e' .undefined k) (l ++ { params := [k] })

inductive RendersParams : List Frame → List Expr → List Expr → Log → Prop
  | nil : RendersParams F [] [] {}
  | cons (h : RendersParam F e e' l) (hs : RendersParams F es es' l') :
    RendersParams F (e :: es) (e' :: es') (l ++ l')

inductive RendersOpt : List Frame → Option Expr → Option Expr → Log → Prop
  | none : RendersOpt F none none {}
  | some (h : Renders F .value e e' l) : RendersOpt F (some e) (some e') l

inductive RendersFunc : List Frame → Func → Func → Log → Prop
  | block (h : RendersStmts (handTo (enterIn .function n F) params) stmts stmts' F' l) :
    RendersFunc F ⟨name, params, .block stmts, style, pos⟩ ⟨name, params, .block stmts', style, pos⟩
      (({ scopes := [(.function, n)] } : Log) ++ l)
  | expr (h : Renders (handTo (enterIn .function n F) params) .value e e' l) :
    RendersFunc F ⟨name, params, .expr e, style, pos⟩
      ⟨name, params, .expr (c.contextCall "precision" [e']), style, pos⟩
      (({ scopes := [(.function, n)] } : Log) ++ l)

/-- Statements, each of which may become several. The last scopes are those that are
open afterwards. -/
inductive RendersStmt : List Frame → Bool → Stmt → List Stmt → List Frame → Log → Prop
  | decl (h : RendersDecls F kind ds stmts F' l) :
      RendersStmt F inside (.decl ⟨kind, ds⟩) stmts F' l
  | expr (h : Renders F .value e e' l) : RendersStmt F inside (.expr e) [.expr e'] F l
  /-- Each side of a branch is a scope. -/
  | branch (ht : Renders F .value t t' l₁)
      (hs : RendersStmt (enterIn .branch n F) true body stmts F₁ l₂)
    (ha : RendersAlternate F a a' l₃) :
    RendersStmt F inside (.branch t body a) [.branch t' (.block stmts) a'] F
      (l₁ ++ (({ scopes := [(.branch, n)] } : Log) ++ (l₂ ++ l₃)))
  /-- A counting loop is a scope, which its header and its body share. -/
  | forLoop (hplain : R.header init)
    (hi : RendersHeader (enterIn .forLoop n F) init init' F₁ l₁) (ht : RendersOpt F₁ t t' l₂)
    (hu : RendersOpt F₁ u u' l₃) (hs : RendersStmt F₁ true body stmts F₂ l₄) :
    RendersStmt F inside (.forLoop init t u body) [.forLoop init' t' u' (.block stmts)] F
      (({ scopes := [(.forLoop, n)] } : Log) ++ (l₁ ++ (l₂ ++ (l₃ ++ l₄))))
  /-- A loop is kept as it is if its header has a pattern. -/
  | rawLoop (h : c.options.unsupported = .passThrough) (hpattern : headerPatternPos? init ≠ none) :
    RendersStmt F inside (.forLoop init t u body) [.forLoop init t u body] F
      { scopes := [(.forLoop, n)], raw := 1 }
  | whileLoop (ht : Renders (enterIn .whileLoop n F) .value t t' l₁)
    (hs : RendersStmt (enterIn .whileLoop n F) true body stmts F₁ l₂) :
    RendersStmt F inside (.whileLoop t body) [.whileLoop t' (.block stmts)] F
      (({ scopes := [(.whileLoop, n)] } : Log) ++ (l₁ ++ l₂))
  /-- A block by itself is no scope. -/
  | block (h : RendersStmts F stmts stmts' F' l) :
    RendersStmt F inside (.block stmts) (if inside then stmts' else [.block stmts']) F' l
  | ret (h : Renders F .value e e' l) : RendersStmt F inside (.ret (some e))
      [.ret (some (if F.any (fun f => f.kind == .function)
        then c.contextCall "precision" [e'] else e'))] F l
  | func (h : RendersFunc F f f' l) : RendersStmt F inside (.func f) [.func f'] F l
  | step (h : isStep t = true) : RendersStmt F inside t [t] F {}

inductive RendersStmts : List Frame → List Stmt → List Stmt → List Frame → Log → Prop
  | nil : RendersStmts F [] [] F {}
  | cons (h : RendersStmt F false t stmts F₁ l) (hs : RendersStmts F₁ rest stmts' F₂ l') :
    RendersStmts F (t :: rest) (stmts ++ stmts') F₂ (l ++ l')

inductive RendersAlternate : List Frame → Option Stmt → Option Stmt → Log → Prop
  | none : RendersAlternate F none none {}
  | some (h : RendersStmt (enterIn .otherwise n F) true body stmts F₁ l) :
    RendersAlternate F (some body) (some (.block stmts))
      (({ scopes := [(.otherwise, n)] } : Log) ++ l)

/-- Declarators. What is read off the context stays and hands its names to the scope; a
single name gets a slot, after its value. -/
inductive RendersDecls : List Frame → DeclKind → List Declarator → List Stmt → List Frame → Log →
    Prop
  | nil : RendersDecls F kind [] [] F {}
  | read (hread : init.isContextRead c.root = true)
    (hs : RendersDecls (handTo F target.boundNames) kind rest stmts F' l) :
    RendersDecls F kind (⟨target, some init, pos⟩ :: rest)
      (.decl ⟨kind, [⟨target, some init, pos⟩]⟩ :: stmts) F' l
  | slot {id : Ident} (hread : R.declared init) (hi : RendersInit F init e' l)
    (hs : RendersDecls (declareIn F (slotIn F id.name kind.bucket)) kind rest stmts F' l') :
    RendersDecls F kind (⟨.ident id, init, pos⟩ :: rest)
      (c.declare (slotIn F id.name kind.bucket) e' :: stmts) F' (l ++ l')
  /-- A pattern is kept as it is if its value is not read off the context. -/
  | raw (h : c.options.unsupported = .passThrough) (hpattern : ∀ id, target ≠ .ident id)
    (hread : ¬ init.any (Expr.isContextRead c.root) = true)
    (hs : RendersDecls (handTo F target.boundNames) kind rest stmts F' l) :
    RendersDecls F kind (⟨target, init, pos⟩ :: rest)
      (.decl ⟨kind, [⟨target, init, pos⟩]⟩ :: stmts) F' (({ raw := 1 } : Log) ++ l)

/-- Initial values. An element of a tuple is read off the current value of the
temporary that keeps the tuple. -/
inductive RendersInit : List Frame → Option Expr → Expr → Log → Prop
  | none : RendersInit F none .undefined {}
  | some (h : Renders F .value e e' l) : RendersInit F (some e) e' l
  | element (h : R.use F .value tuple e') :
    RendersInit F (some (.index (.ident tuple) (.number i))) (.index e' (.number i)) {}

inductive RendersHeader : List Frame → Option ForInit → Option ForInit → List Frame → Log → Prop
  | none : RendersHeader F none none F {}
  | decl (h : RendersCounters F ds ds' F' l) :
    RendersHeader F (some (.decl ⟨kind, ds⟩)) (some (.decl ⟨kind, ds'⟩)) F' l
  | expr (h : Renders F .value e e' l) : RendersHeader F (some (.expr e)) (some (.expr e')) F l

inductive RendersCounters : List Frame → List Declarator → List Declarator → List Frame → Log → Prop
  | nil : RendersCounters F [] [] F {}
  | cons (hi : RendersOpt F init init' l)
    (hs : RendersCounters (countIn F target.boundNames) ds ds' F' l') :
    RendersCounters F (⟨target, init, pos⟩ :: ds) (⟨target, init', pos⟩ :: ds') F' (l ++ l')

end

/-- The body of a script. -/
inductive RendersBody : List Frame → FuncBody → FuncBody → Log → Prop
  | block (h : RendersStmts c R F stmts stmts' F' l) :
      RendersBody F (.block stmts) (.block stmts') l
  | expr (h : Renders c R F .value e e' l) : RendersBody F (.expr e) (.expr e') l

end Naming

end BarScript

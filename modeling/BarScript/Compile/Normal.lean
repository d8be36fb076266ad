import BarScript.Compile.Scope
import BarScript.Script.Names

/-!
# The normal form of declarations

Before names are given slots, declarations are brought into a form with one
name per value. A tuple is kept in a temporary and each of its names is
declared as one element of it; a name that is given a function becomes a
declared function. What is read off the context stays as it is, and its names
are noted.

Each declarator either stays or gives way to statements of its own, and those
that stay next to each other remain one declaration.
-/

namespace BarScript

namespace NormalForm

/-- The names met so far, and how often each rule was used. -/
structure Progress where
  scopes : Scopes
  contextBound : Nat := 0
  hoisted : Nat := 0
  expanded : Nat := 0

abbrev Pass := StateM Progress

/-- What becomes of a declarator. -/
inductive Piece where
  | kept (d : Declarator)
  | replaced (stmts : List Stmt)

/-- One declaration of what is pending, if anything is. -/
def flush (kind : DeclKind) : List Declarator → List Stmt
  | [] => []
  | pending => [.decl ⟨kind, pending⟩]

/-- The statements of a declaration: neighbours that stay are declared
together. -/
def gather (kind : DeclKind) (pending : List Declarator) : List Piece → List Stmt
  | [] => flush kind pending
  | .kept d :: rest => gather kind (pending ++ [d]) rest
  | .replaced stmts :: rest => flush kind pending ++ stmts ++ gather kind [] rest

def single : List Stmt → Stmt
  | [s] => s
  | stmts => .block stmts

def note (g : Scopes → Scopes) : Pass Unit :=
  modify fun p => { p with scopes := g p.scopes }

def temp : Pass String :=
  modifyGet fun p =>
    let (name, scopes) := p.scopes.temp
    (name, { p with scopes })

/-- Notes the names read off the context. Only in the body of the script do
they hold throughout. -/
def noteContextRead (top : Bool) (target : Pattern) : Pass Unit :=
  modify fun p =>
    { p with
      scopes := if top then target.names.foldl Scopes.bindGlobally p.scopes else p.scopes
      contextBound := p.contextBound + target.boundNames.length }

def noteHoisted (name : String) : Pass Unit :=
  modify fun p => { p with scopes := p.scopes.addFunction name, hoisted := p.hoisted + 1 }

def noteExpanded : Pass Unit :=
  modify fun p => { p with expanded := p.expanded + 1 }

/-- The declarations of the elements of a tuple kept in a temporary. -/
def elements (kind : DeclKind) (tuple : String) (items : List (Option Ident)) : List Stmt :=
  items.zipIdx.filterMap fun (item, i) => item.map fun id =>
    .decl ⟨kind, [⟨.ident id, some (.index (.ident ⟨tuple, id.pos⟩) (.number i.toFloat)), id.pos⟩]⟩

end NormalForm

open NormalForm

mutual

def Expr.normal (root : String) : Expr → Pass Expr
  | .func f => return .func (← f.normal root)
  | .member base property => return .member (← base.normal root) property
  | .index base sub => return .index (← base.normal root) (← sub.normal root)
  | .call callee args => return .call (← callee.normal root) (← Expr.listNormal root args)
  | .unary op arg => return .unary op (← arg.normal root)
  | .update op first target => return .update op first (← target.normal root)
  | .binary op left right => return .binary op (← left.normal root) (← right.normal root)
  | .logical op left right => return .logical op (← left.normal root) (← right.normal root)
  | .conditional test consequent alternate =>
    return .conditional (← test.normal root) (← consequent.normal root) (← alternate.normal root)
  | .assign op target value => return .assign op (← target.normal root) (← value.normal root)
  | .array items => return .array (← Expr.listNormal root items)
  | .object props => return .object (← Expr.propNormal root props)
  | .number x => return .number x
  | .str s => return .str s
  | .bool b => return .bool b
  | .null => return .null
  | .undefined => return .undefined
  | .ident id => return .ident id
  | .this => return .this

def Expr.listNormal (root : String) : List Expr → Pass (List Expr)
  | [] => return []
  | e :: rest => return (← e.normal root) :: (← Expr.listNormal root rest)

def Expr.propNormal (root : String) : List (String × Expr) → Pass (List (String × Expr))
  | [] => return []
  | (k, e) :: rest => return (k, ← e.normal root) :: (← Expr.propNormal root rest)

def Expr.optNormal (root : String) : Option Expr → Pass (Option Expr)
  | none => return none
  | some e => return some (← e.normal root)

/-- The normal form of a function inside the script. -/
def Func.normal (root : String) : Func → Pass Func
  | ⟨name, params, .block stmts, style, pos⟩ =>
    return ⟨name, params, .block (← Stmt.listNormal root false stmts), style, pos⟩
  | ⟨name, params, .expr e, style, pos⟩ =>
    return ⟨name, params, .expr (← e.normal root), style, pos⟩

/-- The normal form of a statement. `top` says that it stands in the body of the
script, outside of branches, loops and functions. -/
def Stmt.normal (root : String) (top : Bool) : Stmt → Pass (List Stmt)
  | .decl ⟨kind, declarators⟩ =>
    return gather kind [] (← Declarator.pieces root top kind declarators)
  | .expr e => return [.expr (← e.normal root)]
  | .branch test consequent alternate => do
    let test ← test.normal root
    let consequent ← consequent.normal root false
    let alternate ← match alternate with
      | none => pure none
      | some s => (some ∘ single) <$> s.normal root false
    return [.branch test (single consequent) alternate]
  | .forLoop init test update body => do
    let init ← match init with
      | none => pure none
      | some (.decl ⟨kind, declarators⟩) =>
        (fun ds => some (.decl ⟨kind, ds⟩)) <$> Declarator.headerNormal root declarators
      | some (.expr e) => (some ∘ .expr) <$> e.normal root
    let test ← Expr.optNormal root test
    let update ← Expr.optNormal root update
    let body ← body.normal root false
    return [.forLoop init test update (single body)]
  | .whileLoop test body => do
    let test ← test.normal root
    let body ← body.normal root false
    return [.whileLoop test (single body)]
  | .block stmts => return [.block (← Stmt.listNormal root top stmts)]
  | .ret arg => return [.ret (← Expr.optNormal root arg)]
  | .func f => do
    match f.name with
    | some id => note fun s => s.addFunction id.name
    | none => pure ()
    return [.func (← f.normal root)]
  | .breakLoop => return [.breakLoop]
  | .continueLoop => return [.continueLoop]
  | .empty => return [.empty]

def Stmt.listNormal (root : String) (top : Bool) : List Stmt → Pass (List Stmt)
  | [] => return []
  | s :: rest => return (← s.normal root top) ++ (← Stmt.listNormal root top rest)

/-- What becomes of the declarators of a declaration. -/
def Declarator.pieces (root : String) (top : Bool) (kind : DeclKind) :
    List Declarator → Pass (List Piece)
  | [] => return []
  | ⟨target, none, pos⟩ :: rest =>
    return .kept ⟨target, none, pos⟩ :: (← Declarator.pieces root top kind rest)
  | ⟨target, some init, pos⟩ :: rest => do
    let read := init.isContextRead root
    let plain := init.normal root
    let piece ←
      if read then do
        noteContextRead top target
        pure (.kept ⟨target, some init, pos⟩)
      else match target, init with
        | .ident id, .func ⟨_, params, .block stmts, _, funcPos⟩ => do
          noteHoisted id.name
          let stmts ← Stmt.listNormal root false stmts
          pure (.replaced [.func ⟨some id, params, .block stmts, .classic, funcPos⟩])
        | .ident id, .func ⟨_, params, .expr e, _, funcPos⟩ => do
          noteHoisted id.name
          let e ← e.normal root
          pure (.replaced [.func ⟨some id, params, .block [.ret (some e)], .classic, funcPos⟩])
        | .array items, _ => do
          noteExpanded
          let tuple ← temp
          let init ← plain
          note fun s => items.foldl (fun s item => item.elim s fun id => s.addElement id.name) s
          pure (.replaced (.decl ⟨kind, [⟨.ident ⟨tuple, pos⟩, some init, pos⟩]⟩ ::
            elements kind tuple items))
        | _, _ => do
          let init ← plain
          pure (.kept ⟨target, some init, pos⟩)
    return piece :: (← Declarator.pieces root top kind rest)

/-- The normal form of the declarators of a loop header. -/
def Declarator.headerNormal (root : String) : List Declarator → Pass (List Declarator)
  | [] => return []
  | ⟨target, init, pos⟩ :: rest =>
    return ⟨target, ← Expr.optNormal root init, pos⟩ :: (← Declarator.headerNormal root rest)

end

/-- The normal form of the body of a script. -/
def FuncBody.normal (root : String) : FuncBody → Pass FuncBody
  | .block stmts => return .block (← Stmt.listNormal root true stmts)
  | .expr e => return .expr (← e.normal root)

/-- The normal form of a script, with the names met in it. No temporary takes a
name that the script writes. -/
def Program.normal (p : Program) (scopes : Scopes) : Program × Progress :=
  let scopes := (scopes.setRoot p.rootParam).reserve p.root.names
  let (body, progress) := (p.root.body.normal p.rootParam).run { scopes }
  (⟨{ p.root with body }⟩, progress)

end BarScript

import BarScript.Script.Tree

/-!
# Tolerant equality

Numbers computed along different ways are rarely equal to the last digit, so
`==` and `===` become calls of `root.math.__eq`, which allows for a tolerance.
The result has no equality operator left.
-/

namespace BarScript

def BinaryOp.isEquality : BinaryOp → Bool
  | .eq | .strictEq => true
  | _ => false

namespace Equality

/-- The comparison that stands for an equality. -/
def call (root : String) (left right : Expr) : Expr :=
  .call (.member (.member (.named root) "math") "__eq") [left, right]

end Equality

mutual

/-- An expression without equality operators. -/
def Expr.tolerant (root : String) : Expr → Expr
  | .binary op left right =>
    if op.isEquality then Equality.call root (left.tolerant root) (right.tolerant root)
    else .binary op (left.tolerant root) (right.tolerant root)
  | .member base property => .member (base.tolerant root) property
  | .index base sub => .index (base.tolerant root) (sub.tolerant root)
  | .call callee args => .call (callee.tolerant root) (Expr.listTolerant root args)
  | .unary op arg => .unary op (arg.tolerant root)
  | .update op first target => .update op first (target.tolerant root)
  | .logical op left right => .logical op (left.tolerant root) (right.tolerant root)
  | .conditional test consequent alternate =>
    .conditional (test.tolerant root) (consequent.tolerant root) (alternate.tolerant root)
  | .assign op target value => .assign op (target.tolerant root) (value.tolerant root)
  | .array items => .array (Expr.listTolerant root items)
  | .object props => .object (Expr.propTolerant root props)
  | .func f => .func (f.tolerant root)
  | .number x => .number x
  | .str s => .str s
  | .bool b => .bool b
  | .null => .null
  | .undefined => .undefined
  | .ident id => .ident id
  | .this => .this

def Expr.listTolerant (root : String) : List Expr → List Expr
  | [] => []
  | e :: rest => e.tolerant root :: Expr.listTolerant root rest

def Expr.propTolerant (root : String) : List (String × Expr) → List (String × Expr)
  | [] => []
  | (k, e) :: rest => (k, e.tolerant root) :: Expr.propTolerant root rest

/-- An expression that may be missing, without equality operators. -/
def Expr.optTolerant (root : String) : Option Expr → Option Expr
  | none => none
  | some e => some (e.tolerant root)

def Func.tolerant (root : String) : Func → Func
  | ⟨name, params, .block stmts, style, pos⟩ =>
    ⟨name, params, .block (Stmt.listTolerant root stmts), style, pos⟩
  | ⟨name, params, .expr e, style, pos⟩ => ⟨name, params, .expr (e.tolerant root), style, pos⟩

/-- A statement without equality operators. -/
def Stmt.tolerant (root : String) : Stmt → Stmt
  | .decl ⟨kind, declarators⟩ => .decl ⟨kind, Declarator.listTolerant root declarators⟩
  | .expr e => .expr (e.tolerant root)
  | .branch test consequent alternate =>
    .branch (test.tolerant root) (consequent.tolerant root)
      (match alternate with
        | none => none
        | some s => some (s.tolerant root))
  | .forLoop init test update body =>
    .forLoop
      (match init with
        | none => none
        | some (.decl ⟨kind, declarators⟩) =>
          some (.decl ⟨kind, Declarator.listTolerant root declarators⟩)
        | some (.expr e) => some (.expr (e.tolerant root)))
      (Expr.optTolerant root test) (Expr.optTolerant root update) (body.tolerant root)
  | .whileLoop test body => .whileLoop (test.tolerant root) (body.tolerant root)
  | .block stmts => .block (Stmt.listTolerant root stmts)
  | .ret arg => .ret (Expr.optTolerant root arg)
  | .func f => .func (f.tolerant root)
  | .breakLoop => .breakLoop
  | .continueLoop => .continueLoop
  | .empty => .empty

def Stmt.listTolerant (root : String) : List Stmt → List Stmt
  | [] => []
  | s :: rest => s.tolerant root :: Stmt.listTolerant root rest

def Declarator.listTolerant (root : String) : List Declarator → List Declarator
  | [] => []
  | ⟨target, init, pos⟩ :: rest =>
    ⟨target, Expr.optTolerant root init, pos⟩ :: Declarator.listTolerant root rest

end

mutual

/-- The number of equality operators in an expression. -/
def Expr.equalities : Expr → Nat
  | .binary op left right =>
    (if op.isEquality then 1 else 0) + left.equalities + right.equalities
  | .member base _ => base.equalities
  | .index base sub => base.equalities + sub.equalities
  | .call callee args => callee.equalities + Expr.listEqualities args
  | .unary _ arg => arg.equalities
  | .update _ _ target => target.equalities
  | .logical _ left right => left.equalities + right.equalities
  | .conditional test consequent alternate =>
    test.equalities + consequent.equalities + alternate.equalities
  | .assign _ target value => target.equalities + value.equalities
  | .array items => Expr.listEqualities items
  | .object props => Expr.propEqualities props
  | .func f => f.equalities
  | .number _ | .str _ | .bool _ | .null | .undefined | .ident _ | .this => 0

def Expr.listEqualities : List Expr → Nat
  | [] => 0
  | e :: rest => e.equalities + Expr.listEqualities rest

def Expr.propEqualities : List (String × Expr) → Nat
  | [] => 0
  | (_, e) :: rest => e.equalities + Expr.propEqualities rest

/-- The number of equality operators in an expression that may be missing. -/
def Expr.optEqualities : Option Expr → Nat
  | none => 0
  | some e => e.equalities

/-- The number of equality operators in a function. -/
def Func.equalities : Func → Nat
  | ⟨_, _, .block stmts, _, _⟩ => Stmt.listEqualities stmts
  | ⟨_, _, .expr e, _, _⟩ => e.equalities

/-- The number of equality operators in a statement. -/
def Stmt.equalities : Stmt → Nat
  | .decl ⟨_, declarators⟩ => Declarator.listEqualities declarators
  | .expr e => e.equalities
  | .branch test consequent alternate =>
    test.equalities + consequent.equalities +
      match alternate with
      | none => 0
      | some s => s.equalities
  | .forLoop init test update body =>
    (match init with
      | none => 0
      | some (.decl ⟨_, declarators⟩) => Declarator.listEqualities declarators
      | some (.expr e) => e.equalities) +
      Expr.optEqualities test + Expr.optEqualities update + body.equalities
  | .whileLoop test body => test.equalities + body.equalities
  | .block stmts => Stmt.listEqualities stmts
  | .ret arg => Expr.optEqualities arg
  | .func f => f.equalities
  | .breakLoop | .continueLoop | .empty => 0

def Stmt.listEqualities : List Stmt → Nat
  | [] => 0
  | s :: rest => s.equalities + Stmt.listEqualities rest

def Declarator.listEqualities : List Declarator → Nat
  | [] => 0
  | ⟨_, init, _⟩ :: rest => Expr.optEqualities init + Declarator.listEqualities rest

end

/-- What became of the equality operators of a script. -/
inductive Equality.Outcome where
  /-- There were none. -/
  | skipped
  /-- So many were replaced. -/
  | replaced (count : Nat)
deriving Repr, DecidableEq

def Equality.Outcome.count : Equality.Outcome → Nat
  | skipped => 0
  | replaced n => n

/-- A script without equality operators, and how many it had. -/
def Program.tolerant (p : Program) (root : String) : Program × Equality.Outcome :=
  match p.root.equalities with
  | 0 => (p, .skipped)
  | n => (⟨p.root.tolerant root⟩, .replaced n)

end BarScript

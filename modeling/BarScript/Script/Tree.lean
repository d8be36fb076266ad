import BarScript.Script.Token

/-!
# Script trees

The tree of a script, closed: one constructor for each construct there is. A
script is one root function whose only parameter is the context it runs
against. Names carry the position they were written at; nothing else of the
text survives.
-/

namespace BarScript

/-- A name and where it was written. -/
structure Ident where
  name : String
  pos : Position := {}
deriving Repr, DecidableEq

/-- How a declaration is introduced. -/
inductive DeclKind where
  | const
  | let
  | var
deriving Repr, DecidableEq

/-- What a declarator binds: one name, fields by key, or elements by place,
where a place may be left out. -/
inductive Pattern where
  | ident (id : Ident)
  | object (props : List (String × Ident))
  | array (items : List (Option Ident))
deriving Repr, DecidableEq

/-- How a function was written. -/
inductive FuncStyle where
  | arrow
  | classic
deriving Repr, DecidableEq

/-- Operators with one operand. -/
inductive UnaryOp where
  | not
  | neg
  | plus
deriving Repr, DecidableEq

/-- Operators that change their operand by one. -/
inductive UpdateOp where
  | increment
  | decrement
deriving Repr, DecidableEq

/-- Operators that evaluate both operands. -/
inductive BinaryOp where
  | add
  | sub
  | mul
  | div
  | rem
  | pow
  | lt
  | le
  | gt
  | ge
  | eq
  | strictEq
  | notEq
  | strictNotEq
deriving Repr, DecidableEq

/-- Operators that may leave their right operand alone. -/
inductive LogicalOp where
  | and
  | or
  | nullish
deriving Repr, DecidableEq

/-- Plain and compound assignment. -/
inductive AssignOp where
  | assign
  | add
  | sub
  | mul
  | div
  | rem
deriving Repr, DecidableEq

mutual

/-- Expressions. -/
inductive Expr where
  | number (x : Float)
  | str (s : String)
  | bool (b : Bool)
  | null
  | undefined
  | ident (id : Ident)
  | this
  | member (object : Expr) (property : String)
  | index (object : Expr) (index : Expr)
  | call (callee : Expr) (args : List Expr)
  | unary (op : UnaryOp) (arg : Expr)
  /-- `first` says that the operator stands before its operand. -/
  | update (op : UpdateOp) (first : Bool) (target : Expr)
  | binary (op : BinaryOp) (left right : Expr)
  | logical (op : LogicalOp) (left right : Expr)
  | conditional (test consequent alternate : Expr)
  | assign (op : AssignOp) (target value : Expr)
  | array (items : List Expr)
  | object (props : List (String × Expr))
  | func (f : Func)

/-- Functions, of either style. -/
structure Func where
  name : Option Ident
  params : List Ident
  body : FuncBody
  style : FuncStyle
  pos : Position

/-- The body of a function: statements, or one expression to return. -/
inductive FuncBody where
  | block (stmts : List Stmt)
  | expr (e : Expr)

/-- Statements. -/
inductive Stmt where
  | decl (d : Decl)
  | expr (e : Expr)
  | branch (test : Expr) (consequent : Stmt) (alternate : Option Stmt)
  | forLoop (init : Option ForInit) (test update : Option Expr) (body : Stmt)
  | whileLoop (test : Expr) (body : Stmt)
  | block (stmts : List Stmt)
  | ret (arg : Option Expr)
  | breakLoop
  | continueLoop
  | func (f : Func)
  | empty

/-- A declaration of one or more targets. -/
structure Decl where
  kind : DeclKind
  declarators : List Declarator

/-- One target of a declaration, with its initial value. -/
structure Declarator where
  target : Pattern
  init : Option Expr
  pos : Position

/-- What a loop header does first. -/
inductive ForInit where
  | decl (d : Decl)
  | expr (e : Expr)

end

instance : Inhabited Expr := ⟨.undefined⟩
instance : Inhabited Stmt := ⟨.empty⟩

/-- A script: its root function. -/
structure Program where
  root : Func

/-- The name of the context inside the root function. -/
def Program.rootParam (p : Program) : String :=
  match p.root.params with
  | [] => "context"
  | id :: _ => id.name

/-- The names that a pattern binds, in order. -/
def Pattern.boundNames : Pattern → List Ident
  | .ident id => [id]
  | .object props => props.map Prod.snd
  | .array items => items.filterMap id

/-! ## Signs and strengths of operators -/

def DeclKind.keyword : DeclKind → String
  | .const => "const"
  | .let => "let"
  | .var => "var"

def UnaryOp.symbol : UnaryOp → String
  | .not => "!"
  | .neg => "-"
  | .plus => "+"

def UpdateOp.symbol : UpdateOp → String
  | .increment => "++"
  | .decrement => "--"

namespace BinaryOp

def all : List BinaryOp :=
  [add, sub, mul, div, rem, pow, lt, le, gt, ge, eq, strictEq, notEq, strictNotEq]

def symbol : BinaryOp → String
  | add => "+"
  | sub => "-"
  | mul => "*"
  | div => "/"
  | rem => "%"
  | pow => "**"
  | lt => "<"
  | le => "<="
  | gt => ">"
  | ge => ">="
  | eq => "=="
  | strictEq => "==="
  | notEq => "!="
  | strictNotEq => "!=="

def ofSymbol? (s : String) : Option BinaryOp :=
  all.find? fun op => op.symbol == s

def precedence : BinaryOp → Nat
  | eq | strictEq | notEq | strictNotEq => 8
  | lt | le | gt | ge => 9
  | add | sub => 11
  | mul | div | rem => 12
  | pow => 13

end BinaryOp

namespace LogicalOp

def all : List LogicalOp :=
  [and, or, nullish]

def symbol : LogicalOp → String
  | and => "&&"
  | or => "||"
  | nullish => "??"

def ofSymbol? (s : String) : Option LogicalOp :=
  all.find? fun op => op.symbol == s

def precedence : LogicalOp → Nat
  | nullish => 3
  | or => 4
  | and => 5

end LogicalOp

namespace AssignOp

def all : List AssignOp :=
  [assign, add, sub, mul, div, rem]

def symbol : AssignOp → String
  | assign => "="
  | add => "+="
  | sub => "-="
  | mul => "*="
  | div => "/="
  | rem => "%="

def ofSymbol? (s : String) : Option AssignOp :=
  all.find? fun op => op.symbol == s

/-- The operator that a compound assignment applies first. -/
def binary? : AssignOp → Option BinaryOp
  | assign => none
  | add => some .add
  | sub => some .sub
  | mul => some .mul
  | div => some .div
  | rem => some .rem

end AssignOp

/-! ## Reading off expressions -/

/-- A use of a name that the text does not contain. -/
def Expr.named (name : String) : Expr :=
  .ident ⟨name, {}⟩

/-- Whether an expression can be assigned to: a name, a field or an element. -/
def Expr.isTarget : Expr → Bool
  | .ident _ | .member _ _ | .index _ _ => true
  | _ => false

/-- Whether an expression reads the context, one of its fields, or a field of
one of its fields. -/
def Expr.isContextRead (root : String) : Expr → Bool
  | .ident id => id.name == root
  | .member (.ident id) _ => id.name == root
  | .member (.member (.ident id) _) _ => id.name == root
  | _ => false

mutual

/-- Where an expression was written, as far as its names tell: the position of
its leftmost name or function. Literals have none. -/
def Expr.pos? : Expr → Option Position
  | .ident id => some id.pos
  | .member base _ => base.pos?
  | .index base _ => base.pos?
  | .call callee args => callee.pos?.or (Expr.firstPos? args)
  | .unary _ arg => arg.pos?
  | .update _ _ target => target.pos?
  | .binary _ left right => left.pos?.or right.pos?
  | .logical _ left right => left.pos?.or right.pos?
  | .conditional test _ _ => test.pos?
  | .assign _ target _ => target.pos?
  | .array items => Expr.firstPos? items
  | .object props => Expr.firstPropPos? props
  | .func f => some f.pos
  | .number _ | .str _ | .bool _ | .null | .undefined | .this => none

def Expr.firstPos? : List Expr → Option Position
  | [] => none
  | e :: rest => e.pos?.or (Expr.firstPos? rest)

/-- The first position among the values of properties. -/
def Expr.firstPropPos? : List (String × Expr) → Option Position
  | [] => none
  | (_, e) :: rest => e.pos?.or (Expr.firstPropPos? rest)

end

end BarScript

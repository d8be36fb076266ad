import BarScript.Script.Tree
import BarScript.Number.Text
import BarScript.Text.Printable

/-!
# Outlines of trees

A message about an expression that cannot be assigned to shows the expression
as an outline: the kind of each node, and its parts in parentheses or by
name.
-/

namespace BarScript

def commaSeparated (parts : List String) : String :=
  ", ".intercalate parts

namespace Outline

def record (kind : String) (parts : List (String × String)) : String :=
  kind ++ " \x7b " ++ commaSeparated (parts.map fun (k, v) => k ++ ": " ++ v) ++ " \x7d"

def wrapped (kind part : String) : String :=
  kind ++ "(" ++ part ++ ")"

def optional : Option String → String
  | none => "None"
  | some s => wrapped "Some" s

def list (parts : List String) : String :=
  "[" ++ commaSeparated parts ++ "]"

def position (p : Position) : String :=
  record "Span" [("line", Nat.repr p.line), ("column", Nat.repr p.column)]

def ident (id : Ident) : String :=
  record "Ident" [("name", Text.quoted id.name), ("span", position id.pos)]

def pattern : Pattern → String
  | .ident id => wrapped "Ident" (ident id)
  | .object props =>
    wrapped "Object" (list (props.map fun (k, id) => "(" ++ Text.quoted k ++ ", " ++ ident id ++
      ")"))
  | .array items => wrapped "Array" (list (items.map fun id => optional (id.map ident)))

def declKind : DeclKind → String
  | .const => "Const"
  | .let => "Let"
  | .var => "Var"

def style : FuncStyle → String
  | .arrow => "Arrow"
  | .classic => "Classic"

def unaryOp : UnaryOp → String
  | .not => "Not"
  | .neg => "Neg"
  | .plus => "Plus"

def updateOp : UpdateOp → String
  | .increment => "Increment"
  | .decrement => "Decrement"

def binaryOp : BinaryOp → String
  | .add => "Add"
  | .sub => "Sub"
  | .mul => "Mul"
  | .div => "Div"
  | .rem => "Rem"
  | .pow => "Pow"
  | .lt => "Lt"
  | .le => "Le"
  | .gt => "Gt"
  | .ge => "Ge"
  | .eq => "Eq"
  | .strictEq => "StrictEq"
  | .notEq => "NotEq"
  | .strictNotEq => "StrictNotEq"

def logicalOp : LogicalOp → String
  | .and => "And"
  | .or => "Or"
  | .nullish => "Nullish"

def assignOp : AssignOp → String
  | .assign => "Assign"
  | .add => "Add"
  | .sub => "Sub"
  | .mul => "Mul"
  | .div => "Div"
  | .rem => "Rem"

def bool (b : Bool) : String :=
  if b then "true" else "false"

end Outline

open Outline in
mutual

def Expr.outline : Expr → String
  | .number x => wrapped "Number" (Number.Layout.outline.text x)
  | .str s => wrapped "Str" (Text.quoted s)
  | .bool b => wrapped "Bool" (bool b)
  | .null => "Null"
  | .undefined => "Undefined"
  | .ident id => wrapped "Ident" (ident id)
  | .this => "This"
  | .member base property =>
    record "Member" [("object", base.outline), ("property", Text.quoted property)]
  | .index base sub => record "Index" [("object", base.outline), ("index", sub.outline)]
  | .call callee args =>
    record "Call" [("callee", callee.outline), ("args", list (Expr.outlines args))]
  | .unary op arg => record "Unary" [("op", unaryOp op), ("arg", arg.outline)]
  | .update op first target =>
    record "Update" [("op", updateOp op), ("prefix", bool first), ("target", target.outline)]
  | .binary op left right =>
    record "Binary" [("op", binaryOp op), ("left", left.outline), ("right", right.outline)]
  | .logical op left right =>
    record "Logical" [("op", logicalOp op), ("left", left.outline), ("right", right.outline)]
  | .conditional test consequent alternate =>
    record "Conditional" [("test", test.outline), ("consequent", consequent.outline),
      ("alternate", alternate.outline)]
  | .assign op target value =>
    record "Assign" [("op", assignOp op), ("target", target.outline), ("value", value.outline)]
  | .array items => wrapped "Array" (list (Expr.outlines items))
  | .object props => wrapped "Object" (list (Expr.propOutlines props))
  | .func f => wrapped "Function" f.outline

def Expr.outlines : List Expr → List String
  | [] => []
  | e :: rest => e.outline :: Expr.outlines rest

def Expr.propOutlines : List (String × Expr) → List String
  | [] => []
  | (k, e) :: rest => ("(" ++ Text.quoted k ++ ", " ++ e.outline ++ ")") :: Expr.propOutlines rest

def Expr.optOutline : Option Expr → String
  | none => optional none
  | some e => optional (some e.outline)

def Func.outline : Func → String
  | ⟨name, params, body, s, pos⟩ =>
    record "Function" [("name", optional (name.map ident)), ("params", list (params.map ident)),
      ("body", body.outline), ("style", style s), ("span", position pos)]

def FuncBody.outline : FuncBody → String
  | .block stmts => wrapped "Block" (list (Stmt.outlines stmts))
  | .expr e => wrapped "Expr" e.outline

def Stmt.outline : Stmt → String
  | .decl d => wrapped "Decl" d.outline
  | .expr e => wrapped "Expr" e.outline
  | .branch test consequent alternate =>
    record "If" [("test", test.outline), ("consequent", consequent.outline),
      ("alternate", match alternate with
        | none => optional none
        | some s => optional (some s.outline))]
  | .forLoop init test update body =>
    record "For" [
      ("init", match init with
        | none => optional none
        | some i => optional (some i.outline)),
      ("test", Expr.optOutline test), ("update", Expr.optOutline update), ("body", body.outline)]
  | .whileLoop test body => record "While" [("test", test.outline), ("body", body.outline)]
  | .block stmts => wrapped "Block" (list (Stmt.outlines stmts))
  | .ret arg => wrapped "Return" (Expr.optOutline arg)
  | .breakLoop => "Break"
  | .continueLoop => "Continue"
  | .func f => wrapped "Function" f.outline
  | .empty => "Empty"

def Stmt.outlines : List Stmt → List String
  | [] => []
  | s :: rest => s.outline :: Stmt.outlines rest

def Decl.outline : Decl → String
  | ⟨kind, declarators⟩ =>
    record "VarDecl" [("kind", declKind kind),
      ("declarators", list (Declarator.outlines declarators))]

def Declarator.outlines : List Declarator → List String
  | [] => []
  | ⟨target, init, pos⟩ :: rest =>
    record "Declarator" [("target", pattern target), ("init", Expr.optOutline init),
      ("span", position pos)] :: Declarator.outlines rest

def ForInit.outline : ForInit → String
  | .decl d => wrapped "Decl" d.outline
  | .expr e => wrapped "Expr" e.outline

end

end BarScript

import BarScript.Json.Basic
import BarScript.Script.Outline

/-!
# Trees as plain data

A tree can be handed over as plain data. A node with parts is an object with
one field, named after its kind; a node without parts is the name of its kind.
Numbers that are not finite have no form as data and are written as null.
-/

namespace BarScript

namespace TreeData

def node (kind : String) (parts : Json) : Json :=
  .obj [(kind, parts)]

def orNull (f : α → Json) : Option α → Json
  | some a => f a
  | none => .null

def position (p : Position) : Json :=
  .obj [("line", .int p.line), ("column", .int p.column)]

def ident (id : Ident) : Json :=
  .obj [("name", .str id.name), ("span", position id.pos)]

def pattern : Pattern → Json
  | .ident id => node "Ident" (ident id)
  | .object props => node "Object" (.arr (props.map fun (k, id) => .arr [.str k, ident id]))
  | .array items => node "Array" (.arr (items.map (orNull ident)))

end TreeData

open TreeData

mutual

def Expr.toJson : Expr → Json
  | .number x => node "Number" (if Number.isFinite x then .num x else .null)
  | .str s => node "Str" (.str s)
  | .bool b => node "Bool" (.bool b)
  | .null => .str "Null"
  | .undefined => .str "Undefined"
  | .ident id => node "Ident" (TreeData.ident id)
  | .this => .str "This"
  | .member base property =>
    node "Member" (.obj [("object", base.toJson), ("property", .str property)])
  | .index base sub => node "Index" (.obj [("object", base.toJson), ("index", sub.toJson)])
  | .call callee args =>
    node "Call" (.obj [("callee", callee.toJson), ("args", .arr (Expr.listToJson args))])
  | .unary op arg => node "Unary" (.obj [("op", .str (Outline.unaryOp op)), ("arg", arg.toJson)])
  | .update op first target =>
    node "Update" (.obj [("op", .str (Outline.updateOp op)), ("prefix", .bool first),
      ("target", target.toJson)])
  | .binary op left right =>
    node "Binary" (.obj [("op", .str (Outline.binaryOp op)), ("left", left.toJson),
      ("right", right.toJson)])
  | .logical op left right =>
    node "Logical" (.obj [("op", .str (Outline.logicalOp op)), ("left", left.toJson),
      ("right", right.toJson)])
  | .conditional test consequent alternate =>
    node "Conditional" (.obj [("test", test.toJson), ("consequent", consequent.toJson),
      ("alternate", alternate.toJson)])
  | .assign op target value =>
    node "Assign" (.obj [("op", .str (Outline.assignOp op)), ("target", target.toJson),
      ("value", value.toJson)])
  | .array items => node "Array" (.arr (Expr.listToJson items))
  | .object props => node "Object" (.arr (Expr.propsToJson props))
  | .func f => node "Function" f.toJson

def Expr.listToJson : List Expr → List Json
  | [] => []
  | e :: rest => e.toJson :: Expr.listToJson rest

def Expr.propsToJson : List (String × Expr) → List Json
  | [] => []
  | (k, e) :: rest => .arr [.str k, e.toJson] :: Expr.propsToJson rest

def Expr.optToJson : Option Expr → Json
  | none => .null
  | some e => e.toJson

def Func.toJson : Func → Json
  | ⟨name, params, body, style, pos⟩ =>
    .obj [("name", orNull TreeData.ident name), ("params", .arr (params.map TreeData.ident)),
      ("body", match body with
        | .block stmts => node "Block" (.arr (Stmt.listToJson stmts))
        | .expr e => node "Expr" e.toJson),
      ("style", .str (Outline.style style)), ("span", position pos)]

def Stmt.toJson : Stmt → Json
  | .decl d => node "Decl" d.toJson
  | .expr e => node "Expr" e.toJson
  | .branch test consequent alternate =>
    node "If" (.obj [("test", test.toJson), ("consequent", consequent.toJson),
      ("alternate", match alternate with
        | none => .null
        | some s => s.toJson)])
  | .forLoop init test update body =>
    node "For" (.obj [
      ("init", match init with
        | none => .null
        | some (.decl d) => node "Decl" d.toJson
        | some (.expr e) => node "Expr" e.toJson),
      ("test", Expr.optToJson test), ("update", Expr.optToJson update), ("body", body.toJson)])
  | .whileLoop test body => node "While" (.obj [("test", test.toJson), ("body", body.toJson)])
  | .block stmts => node "Block" (.arr (Stmt.listToJson stmts))
  | .ret arg => node "Return" (Expr.optToJson arg)
  | .breakLoop => .str "Break"
  | .continueLoop => .str "Continue"
  | .func f => node "Function" f.toJson
  | .empty => .str "Empty"

def Stmt.listToJson : List Stmt → List Json
  | [] => []
  | s :: rest => s.toJson :: Stmt.listToJson rest

def Decl.toJson : Decl → Json
  | ⟨kind, declarators⟩ =>
    .obj [("kind", .str (Outline.declKind kind)),
      ("declarators", .arr (Declarator.listToJson declarators))]

def Declarator.listToJson : List Declarator → List Json
  | [] => []
  | ⟨target, init, pos⟩ :: rest =>
    .obj [("target", TreeData.pattern target), ("init", Expr.optToJson init),
      ("span", position pos)] :: Declarator.listToJson rest

end

def Program.toJson (p : Program) : Json :=
  .obj [("root", p.root.toJson)]

/-! ## Reading -/

namespace TreeData

def text? : Json → Option String
  | .str s => some s
  | _ => none

def nat? : Json → Option Nat
  | .int n => if 0 ≤ n then some n.toNat else none
  | _ => none

def bool? : Json → Option Bool
  | .bool b => some b
  | _ => none

def items? : Json → Option (List Json)
  | .arr items => some items
  | _ => none

/-- A number; null stands for one that is not finite. -/
def number? : Json → Option Float
  | .int n => some (Float.ofInt n)
  | .num x => some x
  | .null => some Number.nan
  | _ => none

def named? (label : α → String) (all : List α) (j : Json) : Option α := do
  let s ← text? j
  all.find? fun a => label a == s

def opt? (read : Json → Option α) : Option Json → Option (Option α)
  | none | some .null => some none
  | some j => some <$> read j

def pair? (read : Json → Option α) : Json → Option (String × α)
  | .arr [k, j] => do some (← text? k, ← read j)
  | _ => none

def position? (j : Json) : Option Position := do
  some ⟨← nat? (← j.field? "line"), ← nat? (← j.field? "column")⟩

def ident? (j : Json) : Option Ident := do
  some ⟨← text? (← j.field? "name"), ← position? (← j.field? "span")⟩

def pattern? : Json → Option Pattern
  | .obj [("Ident", j)] => .ident <$> ident? j
  | .obj [("Object", j)] => do some (.object (← (← items? j).mapM (pair? ident?)))
  | .obj [("Array", j)] => do some (.array (← (← items? j).mapM fun i => opt? ident? (some i)))
  | _ => none

mutual

/-- An expression nested less than a depth. -/
def expr? : (depth : Nat) → Json → Option Expr
  | 0, _ => none
  | _ + 1, .str "Null" => some .null
  | _ + 1, .str "Undefined" => some .undefined
  | _ + 1, .str "This" => some .this
  | n + 1, .obj [(kind, j)] => do
    let part (key : String) : Option Expr := do expr? n (← j.field? key)
    match kind with
    | "Number" => .number <$> number? j
    | "Str" => .str <$> text? j
    | "Bool" => .bool <$> bool? j
    | "Ident" => .ident <$> ident? j
    | "Member" => some (.member (← part "object") (← text? (← j.field? "property")))
    | "Index" => some (.index (← part "object") (← part "index"))
    | "Call" => some (.call (← part "callee") (← (← items? (← j.field? "args")).mapM (expr? n)))
    | "Unary" =>
      some (.unary (← named? Outline.unaryOp [.not, .neg, .plus] (← j.field? "op")) (← part "arg"))
    | "Update" =>
      some (.update (← named? Outline.updateOp [.increment, .decrement] (← j.field? "op"))
        (← bool? (← j.field? "prefix")) (← part "target"))
    | "Binary" =>
      some (.binary (← named? Outline.binaryOp BinaryOp.all (← j.field? "op"))
        (← part "left") (← part "right"))
    | "Logical" =>
      some (.logical (← named? Outline.logicalOp LogicalOp.all (← j.field? "op"))
        (← part "left") (← part "right"))
    | "Conditional" =>
      some (.conditional (← part "test") (← part "consequent") (← part "alternate"))
    | "Assign" =>
      some (.assign (← named? Outline.assignOp AssignOp.all (← j.field? "op"))
        (← part "target") (← part "value"))
    | "Array" => some (.array (← (← items? j).mapM (expr? n)))
    | "Object" => some (.object (← (← items? j).mapM (pair? (expr? n))))
    | "Function" => .func <$> func? n j
    | _ => none
  | _ + 1, _ => none

def func? : (depth : Nat) → Json → Option Func
  | 0, _ => none
  | n + 1, j => do
    let body ← match ← j.field? "body" with
      | .obj [("Block", b)] => do some (FuncBody.block (← (← items? b).mapM (stmt? n)))
      | .obj [("Expr", e)] => do some (FuncBody.expr (← expr? n e))
      | _ => none
    some ⟨← opt? ident? (j.field? "name"), ← (← items? (← j.field? "params")).mapM ident?, body,
      ← named? Outline.style [.arrow, .classic] (← j.field? "style"),
      ← position? (← j.field? "span")⟩

def stmt? : (depth : Nat) → Json → Option Stmt
  | 0, _ => none
  | _ + 1, .str "Break" => some .breakLoop
  | _ + 1, .str "Continue" => some .continueLoop
  | _ + 1, .str "Empty" => some .empty
  | n + 1, .obj [(kind, j)] => do
    match kind with
    | "Decl" => .decl <$> decl? n j
    | "Expr" => .expr <$> expr? n j
    | "If" =>
      some (.branch (← expr? n (← j.field? "test")) (← stmt? n (← j.field? "consequent"))
        (← opt? (stmt? n) (j.field? "alternate")))
    | "For" =>
      let init : Json → Option ForInit
        | .obj [("Decl", d)] => .decl <$> decl? n d
        | .obj [("Expr", e)] => .expr <$> expr? n e
        | _ => none
      some (.forLoop (← opt? init (j.field? "init")) (← opt? (expr? n) (j.field? "test"))
        (← opt? (expr? n) (j.field? "update")) (← stmt? n (← j.field? "body")))
    | "While" => some (.whileLoop (← expr? n (← j.field? "test")) (← stmt? n (← j.field? "body")))
    | "Block" => some (.block (← (← items? j).mapM (stmt? n)))
    | "Return" => .ret <$> opt? (expr? n) (some j)
    | "Function" => .func <$> func? n j
    | _ => none
  | _ + 1, _ => none

/-- A declaration nested less than a depth. -/
def decl? : (depth : Nat) → Json → Option Decl
  | 0, _ => none
  | n + 1, j => do
    let declarators ← (← items? (← j.field? "declarators")).mapM fun d => do
      some (Declarator.mk (← pattern? (← d.field? "target")) (← opt? (expr? n) (d.field? "init"))
        (← position? (← d.field? "span")))
    some ⟨← named? Outline.declKind [.const, .let, .var] (← j.field? "kind"), declarators⟩

end

end TreeData

def Expr.ofJson? (j : Json) : Option Expr :=
  TreeData.expr? j.depth j

def Program.ofJson? (j : Json) : Option Program := do
  some ⟨← TreeData.func? j.depth (← j.field? "root")⟩

end BarScript

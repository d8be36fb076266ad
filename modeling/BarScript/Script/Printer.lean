import BarScript.Json.Writer
import BarScript.Script.Outline
import BarScript.Script.Lexer

/-!
# From trees to text

A tree is printed with four spaces per level and with parentheses only where
the strength of operators asks for them. A branch or loop is always printed
with braces, so a body of one statement comes back as a block of one.
-/

namespace BarScript

namespace Printer

def indent (depth : Nat) : String :=
  String.ofList (List.replicate (4 * depth) ' ')

def line (depth : Nat) (text : String) : String :=
  indent depth ++ text ++ "\n"

def parensIf (b : Bool) (text : String) : String :=
  if b then "(" ++ text ++ ")" else text

/-- Whether a key can stand without quotes. -/
def isWordText (s : String) : Bool :=
  match s.toList with
  | [] => false
  | c :: rest => beginsWord c && rest.all continuesWord

def keyText (k : String) : String :=
  if isWordText k then k else Json.literal k

def begins (text start : String) : Bool :=
  start.toList.isPrefixOf text.toList

/-! ## Strength -/

/-- The strength of an assignment and of an arrow function. -/
def assignStrength : Nat := 1

def conditionalStrength : Nat := 2

/-- The strength of an operator in front of its operand. -/
def unaryStrength : Nat := 14

/-- The strength of an update after its operand. -/
def postStrength : Nat := 15

/-- The strength of fields, elements and calls. -/
def accessStrength : Nat := 17

/-- The strength of what needs no parentheses. -/
def primaryStrength : Nat := 18

/-- How strongly the printed form of an expression holds together. A negative
number is printed with its sign in front. -/
def strength : Expr → Nat
  | .assign _ _ _ => assignStrength
  | .func ⟨_, _, _, .arrow, _⟩ => assignStrength
  | .conditional _ _ _ => conditionalStrength
  | .logical op _ _ => op.precedence
  | .binary op _ _ => op.precedence
  | .unary _ _ => unaryStrength
  | .update _ first _ => if first then unaryStrength else postStrength
  | .number x => if Number.isNegative x && !x.isNaN then unaryStrength else primaryStrength
  | .call _ _ | .member _ _ | .index _ _ => accessStrength
  | _ => primaryStrength

/-- Whether an expression needs parentheses in front of a field, an element or
a call. -/
def needsParens (e : Expr) : Bool :=
  strength e < accessStrength ||
    match e with
    | .number _ | .func _ | .object _ => true
    | _ => false

/-! ## Pieces -/

/-- The parameters and the style of a function. -/
def funcHead (name : Option Ident) (params : List Ident) (style : FuncStyle) : String :=
  let ps := commaSeparated (params.map Ident.name)
  match style, name with
  | .arrow, _ => "(" ++ ps ++ ") =>"
  | .classic, some id => "function " ++ id.name ++ "(" ++ ps ++ ")"
  | .classic, none => "function (" ++ ps ++ ")"

/-- An operator in front of its operand; two signs are kept apart. -/
def unaryText (op : UnaryOp) (inner : String) : String :=
  let sign := op == .neg || op == .plus
  if sign && (begins inner "-" || begins inner "+") then op.symbol ++ " " ++ inner
  else op.symbol ++ inner

/-- An expression as a statement. What would be read as a block or a function
declaration goes in parentheses. -/
def expressionLine (depth : Nat) (text : String) : String :=
  line depth (parensIf (begins text "\x7b" || begins text "function") text ++ ";")

/-- The items without the empty ones at the end. -/
def dropEnd (items : List (Option Ident)) : List (Option Ident) :=
  (items.reverse.dropWhile Option.isNone).reverse

def patternText : Pattern → String
  | .ident id => id.name
  | .object props =>
    "\x7b " ++ commaSeparated (props.map fun (k, id) =>
      if k == id.name then k else k ++ ": " ++ id.name) ++ " \x7d"
  | .array items =>
    "[" ++ commaSeparated ((dropEnd items).map fun id => (id.map Ident.name).getD "") ++ "]"

end Printer

open Printer in
mutual

/-- The text of an expression whose lines begin at a depth. -/
def Expr.text (depth : Nat) : Expr → String
  | .number x => Number.Layout.script.text x
  | .str s => Json.literal s
  | .bool b => Outline.bool b
  | .null => "null"
  | .undefined => "undefined"
  | .ident id => id.name
  | .this => "this"
  | .member base property => parensIf (needsParens base) (base.text depth) ++ "." ++ property
  | .index base sub => parensIf (needsParens base) (base.text depth) ++ "[" ++ sub.text depth ++ "]"
  | .call callee args =>
    parensIf (needsParens callee) (callee.text depth) ++ "(" ++
      commaSeparated (Expr.texts depth args) ++ ")"
  | .unary op arg => unaryText op (parensIf (strength arg < unaryStrength) (arg.text depth))
  | .update op first target =>
    let inner := parensIf (needsParens target) (target.text depth)
    if first then op.symbol ++ inner else inner ++ op.symbol
  | .binary op left right =>
    let p := op.precedence
    let pow := op == .pow
    let l := strength left
    let r := strength right
    parensIf (l < p || (pow && (l == p || l == unaryStrength))) (left.text depth) ++
      " " ++ op.symbol ++ " " ++ parensIf (r < p || (!pow && r == p)) (right.text depth)
  | .logical op left right =>
    let p := op.precedence
    parensIf (strength left < p) (left.text depth) ++
      " " ++ op.symbol ++ " " ++ parensIf (strength right ≤ p) (right.text depth)
  | .conditional test consequent alternate =>
    parensIf (strength test ≤ conditionalStrength) (test.text depth) ++
      " ? " ++ consequent.text depth ++ " : " ++ alternate.text depth
  | .assign op target value =>
    parensIf (needsParens target) (target.text depth) ++ " " ++ op.symbol ++ " " ++ value.text depth
  | .array items => "[" ++ commaSeparated (Expr.texts depth items) ++ "]"
  | .object [] => "\x7b\x7d"
  | .object props => "\x7b " ++ commaSeparated (Expr.propTexts depth props) ++ " \x7d"
  | .func f => f.text depth

def Expr.texts (depth : Nat) : List Expr → List String
  | [] => []
  | e :: rest => e.text depth :: Expr.texts depth rest

/-- The texts of properties. A name under its own key is written once. -/
def Expr.propTexts (depth : Nat) : List (String × Expr) → List String
  | [] => []
  | (k, e) :: rest =>
    let own := match e with
      | .ident id => id.name == k
      | _ => false
    (if own then k else keyText k ++ ": " ++ e.text depth) :: Expr.propTexts depth rest

def Expr.optText (depth : Nat) : Option Expr → String
  | none => ""
  | some e => e.text depth

/-- The text of a function, from where the line stands, without a line end. -/
def Func.text (depth : Nat) : Func → String
  | ⟨name, params, .block stmts, style, _⟩ =>
    funcHead name params style ++ " \x7b\n" ++ Stmt.lines (depth + 1) stmts ++ indent depth ++
      "\x7d"
  | ⟨name, params, .expr e, style, _⟩ =>
    let isObject := match e with
      | .object _ => true
      | _ => false
    funcHead name params style ++ " " ++ parensIf isObject (e.text depth)

/-- The lines of a statement. `braced` says that it stands alone between braces
already: a block then adds none of its own. -/
def Stmt.text (depth : Nat) (braced : Bool) : Stmt → String
  | .decl d => line depth (d.text depth ++ ";")
  | .expr e => expressionLine depth (e.text depth)
  | .branch test consequent alternate =>
    line depth ("if (" ++ test.text depth ++ ") \x7b") ++
      consequent.text (depth + 1) true ++
      Stmt.elseText depth alternate
  | .forLoop init test update body =>
    let start := match init with
      | some (.decl d) => d.text depth
      | some (.expr e) => e.text depth
      | none => ""
    line depth ("for (" ++ start ++ "; " ++ Expr.optText depth test ++ "; " ++
        Expr.optText depth update ++ ") \x7b") ++
      body.text (depth + 1) true ++
      line depth "\x7d"
  | .whileLoop test body =>
    line depth ("while (" ++ test.text depth ++ ") \x7b") ++
      body.text (depth + 1) true ++
      line depth "\x7d"
  | .block stmts =>
    if braced then Stmt.lines depth stmts
    else line depth "\x7b" ++ Stmt.lines (depth + 1) stmts ++ line depth "\x7d"
  | .ret none => line depth "return;"
  | .ret (some e) => line depth ("return " ++ e.text depth ++ ";")
  | .breakLoop => line depth "break;"
  | .continueLoop => line depth "continue;"
  | .func f => line depth (f.text depth)
  | .empty => line depth ";"

def Stmt.lines (depth : Nat) : List Stmt → String
  | [] => ""
  | s :: rest => s.text depth false ++ Stmt.lines depth rest

/-- The lines from the brace on that closes a branch. -/
def Stmt.elseText (depth : Nat) : Option Stmt → String
  | none => line depth "\x7d"
  | some (.branch test consequent alternate) =>
    line depth ("\x7d else if (" ++ test.text depth ++ ") \x7b") ++
      consequent.text (depth + 1) true ++
      Stmt.elseText depth alternate
  | some s => line depth "\x7d else \x7b" ++ s.text (depth + 1) true ++ line depth "\x7d"

def Decl.text (depth : Nat) : Decl → String
  | ⟨kind, declarators⟩ => kind.keyword ++ " " ++
      commaSeparated (Declarator.texts depth declarators)

def Declarator.texts (depth : Nat) : List Declarator → List String
  | [] => []
  | ⟨target, none, _⟩ :: rest => patternText target :: Declarator.texts depth rest
  | ⟨target, some e, _⟩ :: rest =>
    (patternText target ++ " = " ++ e.text depth) :: Declarator.texts depth rest

end

def Program.text (p : Program) : String :=
  p.root.text 0 ++ "\n"

end BarScript

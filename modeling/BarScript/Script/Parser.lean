import BarScript.Script.Lexer
import BarScript.Script.Tree

/-!
# From tokens to trees

A recursive descent with one token of lookahead, but for arrow functions,
which are recognised by looking past a balanced pair of parentheses.

Two nonterminals are recursive: assignments, which are the expressions without
a comma, and statements. Every other rule is written over a `Grammar` that
supplies those two, and nests only through them. `assignment` and `statement`
tie the knot, one level of nesting at a time, so that the depth of a text
bounds the recursion and no rule is recursive on its own, but for the loops of
lists and operators.
-/

namespace BarScript

/-- The tokens from the current one on. There is always a current token: the
last one, which ends the text, is never passed. -/
structure Cursor where
  token : Token
  rest : List Token

/-- A parser: it reads on from a cursor, or reports an error. -/
abbrev Parser := StateT Cursor (Except CompileError)

namespace Parser

/-! ## Tokens -/

def peek : Parser Token := do
  return (← get).token

def peekNext : Parser Token := do
  let c ← get
  return c.rest.headD c.token

def advance : Parser Token := do
  let c ← get
  match c.rest with
  | [] => return c.token
  | t :: rest =>
    set (⟨t, rest⟩ : Cursor)
    return c.token

def fail (issue : ParseIssue) (pos : Position) : Parser α :=
  throw (.parse issue pos)

/-- The current token is not what should stand there. -/
def unexpected (wanted : String) : Parser α := do
  let t ← peek
  fail (.expected wanted t.kind) t.pos

def ticked (s : String) : String :=
  "`" ++ s ++ "`"

def atMark (m : String) : Parser Bool := do
  return (← peek).kind.isMark m

def atWord (w : String) : Parser Bool := do
  return (← peek).kind.isWord w

def eatMark (m : String) : Parser Bool := do
  if ← atMark m then
    let _ ← advance
    return true
  else return false

def expectMark (m : String) : Parser Unit := do
  if ← atMark m then
    let _ ← advance
  else unexpected (ticked m)

def expectWord (w : String) : Parser Token := do
  if ← atWord w then advance else unexpected (ticked w)

/-- The end of a statement: a semicolon, which may be left out at the end of a
line, before a closing brace and at the end of the text. -/
def semicolon : Parser Unit := do
  if ← eatMark ";" then return ()
  let t ← peek
  if t.newlineBefore || t.kind.isMark "\x7d" || t.kind.isEof then return ()
  else unexpected (ticked ";")

/-- A name that the script gives to something. -/
def bindingIdent : Parser Ident := do
  let t ← peek
  match t.kind with
  | .word w =>
    if isReserved w then unexpected "identifier"
    else
      let _ ← advance
      return ⟨w, t.pos⟩
  | _ => unexpected "identifier"

/-- Items with commas between them, up to a closing mark, which is left to the
caller. A comma may follow the last item. Every item uses up one of `fuel`. -/
def commaList (close : String) (item : Parser α) : (fuel : Nat) → Parser (List α)
  | 0 => return []
  | fuel + 1 => do
    if ← atMark close then return []
    let a ← item
    if ← eatMark "," then
      let rest ← commaList close item fuel
      return a :: rest
    else return [a]

/-! ## Patterns and parameters -/

/-- A key with a name of its own, or a name that is its own key. -/
def patternProp : Parser (String × Ident) := do
  let t ← advance
  let key ← match t.kind with
    | .word w => pure w
    | .str s => pure s
    | k => fail (.expected "property name" k) t.pos
  if ← eatMark ":" then
    return (key, ← bindingIdent)
  else if isReserved key then fail (.reservedBinding key) t.pos
  else return (key, ⟨key, t.pos⟩)

/-- Elements of a pattern up to the closing bracket; a comma without a name
before it leaves out an element. -/
def patternItems : (fuel : Nat) → Parser (List (Option Ident))
  | 0 => return []
  | fuel + 1 => do
    if ← atMark "]" then return []
    if ← eatMark "," then
      let rest ← patternItems fuel
      return none :: rest
    let id ← bindingIdent
    if ← eatMark "," then
      let rest ← patternItems fuel
      return some id :: rest
    else return [some id]

def pattern (size : Nat) : Parser Pattern := do
  if ← eatMark "\x7b" then
    let props ← commaList "\x7d" patternProp size
    expectMark "\x7d"
    return .object props
  else if ← eatMark "[" then
    let items ← patternItems size
    expectMark "]"
    return .array items
  else
    return .ident (← bindingIdent)

def param : Parser Ident := do
  let id ← bindingIdent
  if ← atMark "=" then fail .defaultParam (← peek).pos
  return id

/-- The parameters of a function, in parentheses. -/
def params (size : Nat) : Parser (List Ident) := do
  expectMark "("
  let ps ← commaList ")" param size
  expectMark ")"
  return ps

/-! ## Expressions -/

/-- What the rules of the language nest through: the size of the text, an
expression without a comma, and a statement. -/
structure Grammar where
  size : Nat
  assignment : Parser Expr
  statement : Parser Stmt

/-- Whether the first of the tokens, an opening parenthesis, is closed right
before an arrow on the same line. -/
def closesBeforeArrow : (depth : Nat) → List Token → Bool
  | _, [] => false
  | depth, t :: rest =>
    if t.kind.isMark "(" then closesBeforeArrow (depth + 1) rest
    else if t.kind.isMark ")" then
      if depth ≤ 1 then
        match rest with
        | next :: _ => next.kind.isMark "=>" && !next.newlineBefore
        | [] => false
      else closesBeforeArrow (depth - 1) rest
    else closesBeforeArrow depth rest

def arrowAhead : Parser Bool := do
  let c ← get
  match c.token.kind with
  | .word w => return !isReserved w && (← peekNext).kind.isMark "=>"
  | .mark "(" => return closesBeforeArrow 0 (c.token :: c.rest)
  | _ => return false

/-- Statements up to a closing brace, which is left to the caller. -/
def statements (item : Parser Stmt) : (fuel : Nat) → Parser (List Stmt)
  | 0 => return []
  | fuel + 1 => do
    if ← atMark "\x7d" then return []
    if (← peek).kind.isEof then unexpected (ticked "\x7d")
    let s ← item
    let rest ← statements item fuel
    return s :: rest

namespace Grammar

def block (g : Grammar) : Parser (List Stmt) := do
  expectMark "\x7b"
  let stmts ← statements g.statement g.size
  expectMark "\x7d"
  return stmts

def arrowFunction (g : Grammar) : Parser Func := do
  let pos := (← peek).pos
  let ps ← if ← atMark "(" then params g.size else List.singleton <$> bindingIdent
  expectMark "=>"
  let body ← if ← atMark "\x7b" then FuncBody.block <$> g.block else FuncBody.expr <$> g.assignment
  return ⟨none, ps, body, .arrow, pos⟩

def classicFunction (g : Grammar) : Parser Func := do
  let pos := (← expectWord "function").pos
  let name ← match (← peek).kind with
    | .word _ => some <$> bindingIdent
    | _ => pure none
  let ps ← params g.size
  let body ← g.block
  return ⟨name, ps, .block body, .classic, pos⟩

/-- An expression where a comma could follow but may not. -/
def expression (g : Grammar) : Parser Expr := do
  let e ← g.assignment
  if ← atMark "," then fail .commaExpression (← peek).pos
  return e

/-- One property of an object literal; a key alone is read as a name. -/
def objectProp (g : Grammar) : Parser (String × Expr) := do
  let t ← advance
  let key ← match t.kind with
    | .word w => pure w
    | .str s => pure s
    | .number x => pure (Number.Layout.script.text x)
    | k => fail (.expected "property name" k) t.pos
  if ← eatMark ":" then
    return (key, ← g.assignment)
  else if isReserved key then fail (.reservedShorthand key) t.pos
  else return (key, .ident ⟨key, t.pos⟩)

def arrayItem (g : Grammar) : Parser Expr := do
  if ← atMark "," then fail .arrayHole (← peek).pos
  g.assignment

/-- A literal, a name, or an expression in parentheses. -/
def primary (g : Grammar) : Parser Expr := do
  let t ← peek
  match t.kind with
  | .number x =>
    let _ ← advance
    return .number x
  | .str s =>
    let _ ← advance
    return .str s
  | .mark "(" =>
    let _ ← advance
    let e ← g.expression
    expectMark ")"
    return e
  | .mark "[" =>
    let _ ← advance
    let items ← commaList "]" g.arrayItem g.size
    expectMark "]"
    return .array items
  | .mark "\x7b" =>
    let _ ← advance
    let props ← commaList "\x7d" g.objectProp g.size
    expectMark "\x7d"
    return .object props
  | .word "function" => return .func (← g.classicFunction)
  | .word w =>
    if w == "true" then
      let _ ← advance
      return .bool true
    else if w == "false" then
      let _ ← advance
      return .bool false
    else if w == "null" then
      let _ ← advance
      return .null
    else if w == "undefined" then
      let _ ← advance
      return .undefined
    else if w == "this" then
      let _ ← advance
      return .this
    else if isReserved w then fail (.unsupportedKeyword w) t.pos
    else
      let _ ← advance
      return .ident ⟨w, t.pos⟩
  | _ => unexpected "expression"

/-- Fields, elements and calls of an expression already read. -/
def accesses (g : Grammar) : (fuel : Nat) → Expr → Parser Expr
  | 0, e => return e
  | fuel + 1, e => do
    if ← eatMark "." then
      let t ← advance
      match t.kind with
      | .word property => accesses g fuel (.member e property)
      | k => fail (.expected "property name" k) t.pos
    else if ← eatMark "[" then
      let i ← g.expression
      expectMark "]"
      accesses g fuel (.index e i)
    else if ← eatMark "(" then
      let args ← commaList ")" g.assignment g.size
      expectMark ")"
      accesses g fuel (.call e args)
    else return e

def updateOp? (k : TokenKind) : Option UpdateOp :=
  if k.isMark "++" then some .increment
  else if k.isMark "--" then some .decrement
  else none

/-- An expression with its accesses, and an update after it on the same
line. -/
def postfixed (g : Grammar) : Parser Expr := do
  let pos := (← peek).pos
  let e ← g.accesses g.size (← g.primary)
  let t ← peek
  if t.newlineBefore then return e
  match updateOp? t.kind with
  | none => return e
  | some op =>
    if !e.isTarget then fail .invalidUpdateTarget pos
    let _ ← advance
    return .update op false e

/-- The operator of a sign in front of its operand. -/
def unaryOp? (k : TokenKind) : Option UnaryOp :=
  if k.isMark "!" then some .not
  else if k.isMark "-" then some .neg
  else if k.isMark "+" then some .plus
  else none

/-- Operators in front of an operand. Every operator uses up one of `fuel`. -/
def unary (g : Grammar) : (fuel : Nat) → Parser Expr
  | 0 => unexpected "expression"
  | fuel + 1 => do
    let t ← peek
    match unaryOp? t.kind with
    | some op =>
      let _ ← advance
      return .unary op (← unary g fuel)
    | none =>
      match updateOp? t.kind with
      | some op =>
        let _ ← advance
        let target ← unary g fuel
        if !target.isTarget then fail .invalidUpdateTarget t.pos
        return .update op true target
      | none => g.postfixed

/-- An operator between two operands. -/
inductive Joint where
  | binary (op : BinaryOp)
  | logical (op : LogicalOp)

namespace Joint

def ofKind? : TokenKind → Option Joint
  | .mark m =>
    match LogicalOp.ofSymbol? m with
    | some op => some (logical op)
    | none => (BinaryOp.ofSymbol? m).map binary
  | _ => none

def precedence : Joint → Nat
  | binary op => op.precedence
  | logical op => op.precedence

/-- How strongly the operators of the right operand have to bind: the power
groups to the right, all others to the left. -/
def rightPrecedence : Joint → Nat
  | binary .pow => BinaryOp.pow.precedence
  | j => j.precedence + 1

def join : Joint → Expr → Expr → Expr
  | binary op, l, r => .binary op l r
  | logical op, l, r => .logical op l r

end Joint

mutual

/-- Operands joined by operators that bind at least as strongly as `least`.
Every operand uses up one of `fuel`. -/
def joined (g : Grammar) : (fuel : Nat) → (least : Nat) → Parser Expr
  | 0, _ => unexpected "expression"
  | fuel + 1, least => do
    let left ← g.unary g.size
    joinedFrom g fuel least left

/-- The operators and operands after a left operand. -/
def joinedFrom (g : Grammar) : (fuel : Nat) → (least : Nat) → Expr → Parser Expr
  | 0, _, left => return left
  | fuel + 1, least, left => do
    match Joint.ofKind? (← peek).kind with
    | none => return left
    | some j =>
      if j.precedence < least then return left
      let _ ← advance
      let right ← joined g fuel j.rightPrecedence
      joinedFrom g fuel least (j.join left right)

end

/-- A choice between two expressions, or joined operands alone. -/
def conditional (g : Grammar) : Parser Expr := do
  let test ← g.joined (2 * g.size) 0
  if ← eatMark "?" then
    let consequent ← g.assignment
    expectMark ":"
    let alternate ← g.assignment
    return .conditional test consequent alternate
  else return test

def assignOp? : TokenKind → Option AssignOp
  | .mark m => AssignOp.ofSymbol? m
  | _ => none

/-- An arrow function, an assignment, or an expression that binds more
strongly. -/
def assignmentRule (g : Grammar) : Parser Expr := do
  if ← arrowAhead then return .func (← g.arrowFunction)
  let pos := (← peek).pos
  let target ← g.conditional
  match assignOp? (← peek).kind with
  | none => return target
  | some op =>
    if !target.isTarget then fail .invalidAssignTarget pos
    let _ ← advance
    let value ← g.assignment
    return .assign op target value

/-! ## Statements -/

def declarator (g : Grammar) : Parser Declarator := do
  let pos := (← peek).pos
  let target ← pattern g.size
  let init ← if ← eatMark "=" then some <$> g.assignment else pure none
  match target, init with
  | .ident _, _ => return ⟨target, init, pos⟩
  | _, some _ => return ⟨target, init, pos⟩
  | _, none => fail .uninitializedPattern pos

/-- Targets of a declaration, with commas between them. -/
def declarators (g : Grammar) : (fuel : Nat) → Parser (List Declarator)
  | 0 => return []
  | fuel + 1 => do
    let d ← g.declarator
    if ← eatMark "," then
      let rest ← declarators g fuel
      return d :: rest
    else return [d]

/-- The kind of declaration that a word introduces. -/
def declKind? (k : TokenKind) : Option DeclKind :=
  if k.isWord "const" then some .const
  else if k.isWord "let" then some .let
  else if k.isWord "var" then some .var
  else none

/-- The targets of a declaration, its keyword being the current token. -/
def declaration (g : Grammar) (kind : DeclKind) : Parser Decl := do
  let _ ← advance
  return ⟨kind, ← g.declarators g.size⟩

def parenthesized (g : Grammar) : Parser Expr := do
  expectMark "("
  let e ← g.expression
  expectMark ")"
  return e

def branch (g : Grammar) : Parser Stmt := do
  let _ ← advance
  let test ← g.parenthesized
  let consequent ← g.statement
  if ← atWord "else" then
    let _ ← advance
    let alternate ← g.statement
    return .branch test consequent (some alternate)
  else return .branch test consequent none

def forInit (g : Grammar) : Parser (Option ForInit) := do
  if ← atMark ";" then return none
  match declKind? (← peek).kind with
  | some kind => return some (.decl (← g.declaration kind))
  | none => return some (.expr (← g.expression))

/-- An expression that may be left out in front of a mark. -/
def before? (g : Grammar) (m : String) : Parser (Option Expr) := do
  if ← atMark m then return none else return some (← g.expression)

def forLoop (g : Grammar) : Parser Stmt := do
  let _ ← advance
  expectMark "("
  let init ← g.forInit
  let t ← peek
  if t.kind.isWord "of" || t.kind.isWord "in" then fail .nonClassicLoop t.pos
  expectMark ";"
  let test ← g.before? ";"
  expectMark ";"
  let update ← g.before? ")"
  expectMark ")"
  let body ← g.statement
  return .forLoop init test update body

/-- A return, from its keyword on. Its value begins on the same line. -/
def returned (g : Grammar) : Parser Stmt := do
  let _ ← advance
  let t ← peek
  let arg ←
    if t.kind.isMark ";" || t.kind.isMark "\x7d" || t.newlineBefore || t.kind.isEof then pure none
    else some <$> g.expression
  semicolon
  return .ret arg

def expressionStatement (g : Grammar) : Parser Stmt := do
  let e ← g.expression
  semicolon
  return .expr e

/-- Whether a reserved word may begin an expression. -/
def beginsExpression (w : String) : Bool :=
  ["true", "false", "null", "undefined", "this", "function"].contains w

def wordStatement (g : Grammar) (w : String) (pos : Position) : Parser Stmt := do
  match declKind? (.word w) with
  | some kind =>
    let d ← g.declaration kind
    semicolon
    return .decl d
  | none =>
    if w == "if" then g.branch
    else if w == "for" then g.forLoop
    else if w == "while" then
      let _ ← advance
      let test ← g.parenthesized
      let body ← g.statement
      return .whileLoop test body
    else if w == "return" then g.returned
    else if w == "break" then
      let _ ← advance
      semicolon
      return .breakLoop
    else if w == "continue" then
      let _ ← advance
      semicolon
      return .continueLoop
    else if w == "function" then
      match (← peekNext).kind with
      | .word _ => return .func (← g.classicFunction)
      | _ => g.expressionStatement
    else if isReserved w && !beginsExpression w then fail (.unsupportedKeyword w) pos
    else g.expressionStatement

def statementRule (g : Grammar) : Parser Stmt := do
  let t ← peek
  match t.kind with
  | .mark "\x7b" => return .block (← g.block)
  | .mark ";" =>
    let _ ← advance
    return .empty
  | .word w => g.wordStatement w t.pos
  | _ => g.expressionStatement

/-! ## Programs -/

/-- The root function and the end of the text. -/
def program (g : Grammar) : Parser Program := do
  let pos := (← peek).pos
  let root ←
    if ← atWord "function" then g.classicFunction
    else if ← arrowAhead then g.arrowFunction
    else fail .notAFunction pos
  let _ ← eatMark ";"
  if !(← peek).kind.isEof then unexpected "end of input after the root function"
  if root.params.length ≠ 1 then fail (.wrongParamCount root.params.length) root.pos
  return ⟨root⟩

end Grammar

mutual

/-- An assignment nested less than `depth` deep in a text of `size` tokens. -/
def assignment (size : Nat) : (depth : Nat) → Parser Expr
  | 0 => unexpected "expression"
  | depth + 1 => Grammar.assignmentRule ⟨size, assignment size depth, statement size depth⟩

/-- A statement nested less than `depth` deep in a text of `size` tokens. -/
def statement (size : Nat) : (depth : Nat) → Parser Stmt
  | 0 => unexpected "expression"
  | depth + 1 => Grammar.statementRule ⟨size, assignment size depth, statement size depth⟩

end

/-- The grammar for a text of `size` tokens. Going one level deeper reads a
token, or goes from a statement to the expression it is made of, so twice the
size is more than any text nests. -/
def grammar (size : Nat) : Grammar :=
  ⟨size, assignment size (2 * size), statement size (2 * size)⟩

def run (p : Parser α) (tokens : List Token) : Except CompileError (α × Cursor) :=
  match tokens with
  | [] => p ⟨⟨.eof, .start, true⟩, []⟩
  | t :: rest => p ⟨t, rest⟩

end Parser

/-- Reads a script. -/
def parse (source : String) : Except CompileError Program := do
  let tokens ← tokenize source
  let (p, _) ← Parser.run (Parser.grammar (tokens.length + 1)).program tokens
  return p

end BarScript

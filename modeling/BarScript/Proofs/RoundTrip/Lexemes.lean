import BarScript.Indicator.Basic
import BarScript.Proofs.Parsed
import BarScript.Proofs.RoundTrip.Lexing

/-!
# The tokens of a printed tree

Printing writes tokens and blanks. `lexemes` says which ones, along the recursion
of the printer: every token comes with the blanks in front of it, and the first
token of an expression with the blanks that whoever prints the expression puts
there. A statement begins on a line of its own, so the line end before it belongs
to its first token, and the last line end of a text to the end of the text.
-/

namespace BarScript

namespace Lexeme

/-- A mark right after the token before it. -/
def mark (m : String) : Lexeme := ⟨[], .mark m⟩

def spaced (m : String) : Lexeme := ⟨[' '], .mark m⟩

@[simp] theorem lead_mark (m : String) : (mark m).lead = [] := rfl

@[simp] theorem kind_mark (m : String) : (mark m).kind = .mark m := rfl

@[simp] theorem lead_spaced (m : String) : (spaced m).lead = [' '] := rfl

@[simp] theorem kind_spaced (m : String) : (spaced m).kind = .mark m := rfl

@[simp] theorem spelling_mark (m : String) : (TokenKind.mark m).spelling = m.toList := rfl

@[simp] theorem spelling_word (w : String) : (TokenKind.word w).spelling = w.toList := rfl

/-- Parentheses if asked for. The tokens between them follow right after the
opening one. -/
def parensIf (b : Bool) (ls : List Char → List Lexeme) (lead : List Char) : List Lexeme :=
  if b then ⟨lead, .mark "("⟩ :: (ls [] ++ [mark ")"]) else ls lead

/-- Items with a comma and a space between them. -/
def separated : List (List Char → List Lexeme) → List Char → List Lexeme
  | [], _ => []
  | [item], lead => item lead
  | item :: rest, lead => item lead ++ mark "," :: separated rest [' ']

def word (w : String) (lead : List Char) : List Lexeme := [⟨lead, .word w⟩]

def key (k : String) (lead : List Char) : Lexeme :=
  ⟨lead, if Printer.isWordText k then .word k else .str k⟩

/-- Parameters and the parenthesis after them. -/
def params (ids : List Ident) : List Lexeme :=
  separated (ids.map fun id => word id.name) [] ++ [mark ")"]

/-- The parameters and the style of a function. -/
def head (ids : List Ident) : FuncStyle → Option Ident → List Char → List Lexeme
  | .arrow, _, lead => ⟨lead, .mark "("⟩ :: (params ids ++ [spaced "=>"])
  | .classic, some id, lead =>
    ⟨lead, .word "function"⟩ :: ⟨[' '], .word id.name⟩ :: mark "(" :: params ids
  | .classic, none, lead => ⟨lead, .word "function"⟩ :: spaced "(" :: params ids

def newline (depth : Nat) : List Char :=
  '\n' :: List.replicate (4 * depth) ' '

/-- The elements of an array pattern. An element that is left out has no token of
its own: the blanks in front of it go to the comma after it. -/
def places : List (Option Ident) → List Char → List Lexeme
  | [], _ => []
  | [item], lead => (item.map fun id => ⟨lead, .word id.name⟩).toList
  | some id :: rest, lead => ⟨lead, .word id.name⟩ :: mark "," :: places rest [' ']
  | none :: rest, lead => ⟨lead, .mark ","⟩ :: places rest [' ']

def patternProp (p : String × Ident) (lead : List Char) : List Lexeme :=
  if p.1 == p.2.name then word p.1 lead
  else ⟨lead, .word p.1⟩ :: mark ":" :: word p.2.name [' ']

def pattern : Pattern → List Char → List Lexeme
  | .ident id, lead => word id.name lead
  | .object props, lead =>
    ⟨lead, .mark "\x7b"⟩ :: (separated (props.map patternProp) [' '] ++
      [⟨if props.isEmpty then [' ', ' '] else [' '], .mark "\x7d"⟩])
  | .array items, lead =>
    ⟨lead, .mark "["⟩ :: (places (Printer.dropEnd items) [] ++ [mark "]"])

end Lexeme

def Expr.isNamed (x : String) : Expr → Bool
  | .ident id => id.name == x
  | _ => false

/-- Whether an expression is an object literal. -/
def Expr.isObject : Expr → Bool
  | .object _ => true
  | _ => false

open Printer Lexeme

mutual

def Expr.lexemes (depth : Nat) : Expr → List Char → List Lexeme
  | .number x, lead => [⟨lead, .number x⟩]
  | .str s, lead => [⟨lead, .str s⟩]
  | .bool b, lead => word (Outline.bool b) lead
  | .null, lead => word "null" lead
  | .undefined, lead => word "undefined" lead
  | .ident id, lead => word id.name lead
  | .this, lead => word "this" lead
  | .member base property, lead =>
    Lexeme.parensIf (needsParens base) (fun l => base.lexemes depth l) lead ++
      mark "." :: word property []
  | .index base sub, lead =>
    Lexeme.parensIf (needsParens base) (fun l => base.lexemes depth l) lead ++
      mark "[" :: (sub.lexemes depth [] ++ [mark "]"])
  | .call callee args, lead =>
    Lexeme.parensIf (needsParens callee) (fun l => callee.lexemes depth l) lead ++
      mark "(" :: (separated (Expr.listLexemes depth args) [] ++ [mark ")"])
  | .unary op arg, lead =>
    let inner := parensIf (strength arg < unaryStrength) (arg.text depth)
    let apart := (op == .neg || op == .plus) && (begins inner "-" || begins inner "+")
    ⟨lead, .mark op.symbol⟩ :: Lexeme.parensIf (strength arg < unaryStrength)
      (fun l => arg.lexemes depth l) (if apart then [' '] else [])
  | .update op first target, lead =>
    if first then
      ⟨lead, .mark op.symbol⟩ ::
        Lexeme.parensIf (needsParens target) (fun l => target.lexemes depth l) []
    else
      Lexeme.parensIf (needsParens target) (fun l => target.lexemes depth l) lead ++
        [mark op.symbol]
  | .binary op left right, lead =>
    let p := op.precedence
    let pow := op == .pow
    let l := strength left
    let r := strength right
    Lexeme.parensIf (l < p || (pow && (l == p || l == unaryStrength)))
        (fun l => left.lexemes depth l) lead ++
      spaced op.symbol :: Lexeme.parensIf (r < p || (!pow && r == p))
        (fun l => right.lexemes depth l) [' ']
  | .logical op left right, lead =>
    let p := op.precedence
    Lexeme.parensIf (strength left < p) (fun l => left.lexemes depth l) lead ++
      spaced op.symbol :: Lexeme.parensIf (strength right ≤ p) (fun l => right.lexemes depth l)
        [' ']
  | .conditional test consequent alternate, lead =>
    Lexeme.parensIf (strength test ≤ conditionalStrength) (fun l => test.lexemes depth l) lead ++
      spaced "?" :: (consequent.lexemes depth [' '] ++ spaced ":" :: alternate.lexemes depth [' '])
  | .assign op target value, lead =>
    Lexeme.parensIf (needsParens target) (fun l => target.lexemes depth l) lead ++
      spaced op.symbol :: value.lexemes depth [' ']
  | .array items, lead =>
    ⟨lead, .mark "["⟩ :: (separated (Expr.listLexemes depth items) [] ++ [mark "]"])
  | .object [], lead => [⟨lead, .mark "\x7b"⟩, mark "\x7d"]
  | .object props, lead =>
    ⟨lead, .mark "\x7b"⟩ :: (separated (Expr.propLexemes depth props) [' '] ++ [spaced "\x7d"])
  | .func f, lead => f.lexemes depth lead

def Expr.listLexemes (depth : Nat) : List Expr → List (List Char → List Lexeme)
  | [] => []
  | e :: rest => (fun l => e.lexemes depth l) :: Expr.listLexemes depth rest

def Expr.propLexemes (depth : Nat) : List (String × Expr) → List (List Char → List Lexeme)
  | [] => []
  | (k, e) :: rest =>
    (fun l => if e.isNamed k then word k l else key k l :: mark ":" :: e.lexemes depth [' ']) ::
      Expr.propLexemes depth rest

def Expr.optLexemes (depth : Nat) : Option Expr → List Char → List Lexeme
  | none, _ => []
  | some e, lead => e.lexemes depth lead

def Func.lexemes (depth : Nat) : Func → List Char → List Lexeme
  | ⟨name, params, .block stmts, style, _⟩, lead =>
    head params style name lead ++ spaced "\x7b" :: (Stmt.listLexemes (depth + 1) stmts ++
      [⟨newline depth, .mark "\x7d"⟩])
  | ⟨name, params, .expr e, style, _⟩, lead =>
    head params style name lead ++ Lexeme.parensIf e.isObject (fun l => e.lexemes depth l) [' ']

def Stmt.lexemes (depth : Nat) (braced : Bool) : Stmt → List Lexeme
  | .decl d => d.lexemes depth (newline depth) ++ [mark ";"]
  | .expr e =>
    let text := e.text depth
    Lexeme.parensIf (begins text "\x7b" || begins text "function") (fun l => e.lexemes depth l)
      (newline depth) ++ [mark ";"]
  | .branch test consequent alternate =>
    ⟨newline depth, .word "if"⟩ :: spaced "(" :: (test.lexemes depth [] ++
      mark ")" :: spaced "\x7b" :: (consequent.lexemes (depth + 1) true ++
        Stmt.elseLexemes depth alternate))
  | .forLoop init test update body =>
    ⟨newline depth, .word "for"⟩ :: spaced "(" :: (ForInit.optLexemes depth init ++ mark ";" ::
      (Expr.optLexemes depth test [' '] ++ ⟨if test.isSome then [] else [' '], .mark ";"⟩ ::
        (Expr.optLexemes depth update [' '] ++ ⟨if update.isSome then [] else [' '], .mark ")"⟩ ::
          spaced "\x7b" :: (body.lexemes (depth + 1) true ++ [⟨newline depth, .mark "\x7d"⟩]))))
  | .whileLoop test body =>
    ⟨newline depth, .word "while"⟩ :: spaced "(" :: (test.lexemes depth [] ++
      mark ")" :: spaced "\x7b" :: (body.lexemes (depth + 1) true ++
        [⟨newline depth, .mark "\x7d"⟩]))
  | .block stmts =>
    if braced then Stmt.listLexemes depth stmts
    else ⟨newline depth, .mark "\x7b"⟩ :: (Stmt.listLexemes (depth + 1) stmts ++
      [⟨newline depth, .mark "\x7d"⟩])
  | .ret none => [⟨newline depth, .word "return"⟩, mark ";"]
  | .ret (some e) => ⟨newline depth, .word "return"⟩ :: (e.lexemes depth [' '] ++ [mark ";"])
  | .breakLoop => [⟨newline depth, .word "break"⟩, mark ";"]
  | .continueLoop => [⟨newline depth, .word "continue"⟩, mark ";"]
  | .func f => f.lexemes depth (newline depth)
  | .empty => [⟨newline depth, .mark ";"⟩]

def ForInit.optLexemes (depth : Nat) : Option ForInit → List Lexeme
  | none => []
  | some (.decl d) => d.lexemes depth []
  | some (.expr e) => e.lexemes depth []

def Stmt.listLexemes (depth : Nat) : List Stmt → List Lexeme
  | [] => []
  | s :: rest => s.lexemes depth false ++ Stmt.listLexemes depth rest

def Stmt.elseLexemes (depth : Nat) : Option Stmt → List Lexeme
  | none => [⟨newline depth, .mark "\x7d"⟩]
  | some (.branch test consequent alternate) =>
    ⟨newline depth, .mark "\x7d"⟩ :: ⟨[' '], .word "else"⟩ :: ⟨[' '], .word "if"⟩ :: spaced "(" ::
      (test.lexemes depth [] ++ mark ")" :: spaced "\x7b" ::
        (consequent.lexemes (depth + 1) true ++ Stmt.elseLexemes depth alternate))
  | some s =>
    ⟨newline depth, .mark "\x7d"⟩ :: ⟨[' '], .word "else"⟩ :: spaced "\x7b" ::
      (s.lexemes (depth + 1) true ++ [⟨newline depth, .mark "\x7d"⟩])

/-- The tokens of a declaration. Where nothing is declared, only a blank is left of
the declarators. -/
def Decl.lexemes (depth : Nat) : Decl → List Char → List Lexeme
  | ⟨kind, []⟩, lead => [⟨lead, .word kind.keyword⟩, ⟨[' '], .eof⟩]
  | ⟨kind, declarators⟩, lead =>
    ⟨lead, .word kind.keyword⟩ :: separated (Declarator.listLexemes depth declarators) [' ']

def Declarator.listLexemes (depth : Nat) : List Declarator → List (List Char → List Lexeme)
  | [] => []
  | ⟨target, none, _⟩ :: rest => Lexeme.pattern target :: Declarator.listLexemes depth rest
  | ⟨target, some e, _⟩ :: rest =>
    (fun l => Lexeme.pattern target l ++ spaced "=" :: e.lexemes depth [' ']) ::
      Declarator.listLexemes depth rest

end

/-! ## Texts -/

def Lexeme.Make (ls : List Char → List Lexeme) (text : String) : Prop :=
  ∀ lead, spell (ls lead) = lead ++ text.toList

namespace Lexeme

theorem make_word (w : String) : Make (word w) w := fun lead => by
  simp [word]

theorem Make.parensIf {ls : List Char → List Lexeme} (h : Make ls text) (b : Bool) :
    Make (Lexeme.parensIf b ls) (Printer.parensIf b text) := by
  intro lead
  cases b with
  | false => exact h lead
  | true => simp [Lexeme.parensIf, Printer.parensIf, h []]

theorem commaSeparated_cons (t t' : String) (texts : List String) :
    commaSeparated (t :: t' :: texts) = t ++ ", " ++ commaSeparated (t' :: texts) :=
  String.intercalate_cons_cons

theorem spell_separated {items : List (List Char → List Lexeme)} (h : List.Forall₂ Make items texts)
    (lead : List Char) :
    spell (separated items lead) =
      (if items.isEmpty then [] else lead) ++ (commaSeparated texts).toList := by
  induction h generalizing lead with
  | nil => simp [separated, commaSeparated]
  | cons hitem hrest ih =>
    cases hrest with
    | nil => simp [separated, commaSeparated, hitem lead]
    | cons => simp [separated, commaSeparated_cons, hitem lead, ih]

theorem spell_params (ids : List Ident) :
    spell (params ids) = (commaSeparated (ids.map Ident.name)).toList ++ [')'] := by
  have hitems : List.Forall₂ Make (ids.map fun id => word id.name) (ids.map Ident.name) := by
    induction ids with
    | nil => exact .nil
    | cons id rest ih => exact .cons (make_word id.name) ih
  simp [params, spell_separated hitems]

theorem make_head (name : Option Ident) (ids : List Ident) (style : FuncStyle) :
    Make (head ids style name) (funcHead name ids style) := by
  intro lead
  cases style with
  | arrow => simp [head, funcHead, spell_params]
  | classic =>
    cases name <;> simp [head, funcHead, spell_params]

/-- What is left of elements does not end in an empty one. -/
theorem getLast?_dropEnd (items : List (Option Ident)) : (dropEnd items).getLast? ≠ some none := by
  intro h
  rw [dropEnd, List.getLast?_reverse] at h
  have := List.head?_dropWhile_not Option.isNone items.reverse
  rw [h] at this
  cases this

theorem spell_places {items : List (Option Ident)} (h : items.getLast? ≠ some none)
    (lead : List Char) : spell (places items lead) = (if items.isEmpty then [] else lead) ++
      (commaSeparated (items.map fun id => (id.map Ident.name).getD "")).toList := by
  induction items generalizing lead with
  | nil => simp [places, commaSeparated]
  | cons item rest ih =>
    cases rest with
    | nil =>
      cases item with
      | none => exact absurd rfl h
      | some id => simp [places, commaSeparated]
    | cons item' rest =>
      rw [List.getLast?_cons_cons] at h
      cases item <;> simp [places, commaSeparated_cons, ih h]

def propText (p : String × Ident) : String :=
  if p.1 == p.2.name then p.1 else p.1 ++ ": " ++ p.2.name

theorem make_patternProp (p : String × Ident) : Make (patternProp p) (propText p) := by
  intro lead
  unfold patternProp propText
  split
  · exact make_word p.1 lead
  · simp [make_word _ _]

theorem make_pattern (p : Pattern) : Make (pattern p) (patternText p) := by
  intro lead
  cases p with
  | ident id => exact make_word id.name lead
  | object props =>
    have hitems : List.Forall₂ Make (props.map patternProp) (props.map propText) := by
      induction props with
      | nil => exact .nil
      | cons p rest ih => exact .cons (make_patternProp p) ih
    have htext : patternText (.object props) =
        "\x7b " ++ commaSeparated (props.map propText) ++ " \x7d" := rfl
    cases props with
    | nil => simp [pattern, patternText, separated, commaSeparated]
    | cons p rest =>
      simp only [pattern, spell_cons, spell_append, spell_separated hitems, htext]
      simp 
  | array items =>
    simp [pattern, patternText, spell_places (getLast?_dropEnd items)]

theorem make_key (k : String) (lead : List Char) :
    (key k lead).lead = lead ∧ (key k lead).kind.spelling = (keyText k).toList := by
  unfold key keyText
  split <;> exact ⟨rfl, rfl⟩

end Lexeme

/-- Tokens are what lines are made of: the line end after the lines stands before
them instead. -/
def Lexeme.MakeLines (ls : List Lexeme) (text : String) : Prop :=
  ∀ rest, '\n' :: (text.toList ++ rest) = spell ls ++ '\n' :: rest

theorem Printer.toList_line (depth : Nat) (text : String) (rest : List Char) :
    '\n' :: ((line depth text).toList ++ rest) =
      newline depth ++ (text.toList ++ '\n' :: rest) := by
  simp [line, indent, newline]

theorem Printer.unaryText_eq (op : UnaryOp) (inner : String) : (unaryText op inner).toList =
    op.symbol.toList ++ ((if (op == .neg || op == .plus) &&
      (begins inner "-" || begins inner "+") then [' '] else []) ++ inner.toList) := by
  unfold unaryText
  dsimp only
  split <;> simp

def ForInit.optText (depth : Nat) : Option ForInit → String
  | some (.decl d) => d.text depth
  | some (.expr e) => e.text depth
  | none => ""

theorem Stmt.text_forLoop (depth : Nat) (braced : Bool) (init : Option ForInit)
    (test update : Option Expr) (body : Stmt) :
    (Stmt.forLoop init test update body).text depth braced =
      line depth ("for (" ++ ForInit.optText depth init ++ "; " ++ Expr.optText depth test ++
        "; " ++
          Expr.optText depth update ++ ") \x7b") ++ body.text (depth + 1) true ++ line depth
            "\x7d" := by
  rcases init with _ | _ | _ <;> rfl

theorem Stmt.make_else (hbranch : ∀ test c a, s ≠ .branch test c a)
    (hs : MakeLines (s.lexemes (depth + 1) true) (s.text (depth + 1) true)) :
    MakeLines (Stmt.elseLexemes depth (some s)) (Stmt.elseText depth (some s)) := by
  intro rest
  cases s with
  | branch test c a => exact absurd rfl (hbranch test c a)
  | _ => simp [Stmt.elseLexemes, Stmt.elseText, toList_line, hs _]

mutual

theorem Expr.make_lexemes (depth : Nat) (e : Expr) : Make (e.lexemes depth) (e.text depth) := by
  intro lead
  match e with
  | .number x | .str s => simp [Expr.lexemes, Expr.text, TokenKind.spelling]
  | .bool b => exact make_word _ lead
  | .null | .undefined | .this => exact make_word _ lead
  | .ident id => exact make_word _ lead
  | .member base property =>
    have hbase := (base.make_lexemes depth).parensIf (needsParens base) lead
    simp [Expr.lexemes, Expr.text, hbase, make_word _ _]
  | .index base sub =>
    have hbase := (base.make_lexemes depth).parensIf (needsParens base) lead
    have hsub := sub.make_lexemes depth []
    simp [Expr.lexemes, Expr.text, hbase, hsub]
  | .call callee args =>
    have hcallee := (callee.make_lexemes depth).parensIf (needsParens callee) lead
    have hargs := spell_separated (Expr.make_listLexemes depth args) []
    simp [Expr.lexemes, Expr.text, hcallee, hargs]
  | .unary op arg =>
    have harg := (arg.make_lexemes depth).parensIf (strength arg < unaryStrength)
    simp [Expr.lexemes, Expr.text, harg _, unaryText_eq]
  | .update op first target =>
    have htarget := (target.make_lexemes depth).parensIf (needsParens target)
    cases first <;> simp [Expr.lexemes, Expr.text, htarget _]
  | .binary op left right | .logical op left right =>
    have hleft := (left.make_lexemes depth).parensIf
    have hright := (right.make_lexemes depth).parensIf
    simp [Expr.lexemes, Expr.text, hleft _ _, hright _ _]
  | .conditional test consequent alternate =>
    have htest := (test.make_lexemes depth).parensIf
    have hconsequent := consequent.make_lexemes depth
    have halternate := alternate.make_lexemes depth
    simp [Expr.lexemes, Expr.text, htest _ _, hconsequent _, halternate _]
  | .assign op target value =>
    have htarget := (target.make_lexemes depth).parensIf
    have hvalue := value.make_lexemes depth
    simp [Expr.lexemes, Expr.text, htarget _ _, hvalue _]
  | .array items =>
    have hitems := spell_separated (Expr.make_listLexemes depth items) []
    simp [Expr.lexemes, Expr.text, hitems]
  | .object [] => simp [Expr.lexemes, Expr.text]
  | .object (p :: props) =>
    have hprops := spell_separated (Expr.make_propLexemes depth (p :: props)) [' ']
    have hne : (Expr.propLexemes depth (p :: props)).isEmpty = false := rfl
    simp [Expr.lexemes, Expr.text, hprops, hne]
  | .func f => exact f.make_lexemes depth lead

theorem Expr.make_listLexemes (depth : Nat) (es : List Expr) :
    List.Forall₂ Make (Expr.listLexemes depth es) (Expr.texts depth es) := by
  match es with
  | [] => exact .nil
  | e :: rest => exact .cons (e.make_lexemes depth) (Expr.make_listLexemes depth rest)

theorem Expr.make_propLexemes (depth : Nat) (props : List (String × Expr)) :
    List.Forall₂ Make (Expr.propLexemes depth props) (Expr.propTexts depth props) := by
  match props with
  | [] => exact .nil
  | (k, e) :: rest =>
    refine .cons (fun lead => ?_) (Expr.make_propLexemes depth rest)
    have he := e.make_lexemes depth [' ']
    have hlong : spell (key k lead :: mark ":" :: e.lexemes depth [' ']) =
        lead ++ (keyText k ++ ": " ++ e.text depth).toList := by
      simp [make_key, he]
    cases e with
    | ident id =>
      by_cases hk : id.name == k
      · simp [Expr.isNamed, hk, make_word k lead]
      · simpa [Expr.isNamed, hk] using hlong
    | _ => exact hlong

theorem Expr.spell_optLexemes (depth : Nat) (e? : Option Expr) (lead : List Char) :
    spell (Expr.optLexemes depth e? lead) =
      (if e?.isSome then lead else []) ++ (Expr.optText depth e?).toList := by
  match e? with
  | none => rfl
  | some e => exact e.make_lexemes depth lead

theorem Func.make_lexemes (depth : Nat) (f : Func) : Make (f.lexemes depth) (f.text depth) := by
  intro lead
  match f with
  | ⟨name, params, .block stmts, style, pos⟩ =>
    have hhead := make_head name params style lead
    have hbody := Stmt.make_listLexemes (depth + 1) stmts
    simp [Func.lexemes, Func.text, hhead, newline, indent, hbody _]
  | ⟨name, params, .expr e, style, pos⟩ =>
    have hhead := make_head name params style lead
    have he := (e.make_lexemes depth).parensIf e.isObject [' ']
    have htext : (Func.mk name params (.expr e) style pos).text depth =
        funcHead name params style ++ " " ++ parensIf e.isObject (e.text depth) := by
      cases e <;> rfl
    simp [Func.lexemes, htext, hhead, he]

theorem Stmt.make_lexemes (depth : Nat) (braced : Bool) (s : Stmt) :
    MakeLines (s.lexemes depth braced) (s.text depth braced) := by
  intro rest
  match s with
  | .decl d =>
    have hd := d.make_lexemes depth (newline depth)
    simp [Stmt.lexemes, Stmt.text, toList_line, hd]
  | .expr e =>
    have he := (e.make_lexemes depth).parensIf
    simp [Stmt.lexemes, Stmt.text, expressionLine, toList_line, he _ _]
  | .branch test consequent alternate =>
    have htest := test.make_lexemes depth []
    have hconsequent := consequent.make_lexemes (depth + 1) true
    have halternate := Stmt.make_elseLexemes depth alternate
    simp [Stmt.lexemes, Stmt.text, toList_line, htest, hconsequent _, halternate _]
  | .forLoop init test update body =>
    have hinit := ForInit.spell_optLexemes depth init
    have htest := Expr.spell_optLexemes depth test
    have hupdate := Expr.spell_optLexemes depth update
    have hbody := body.make_lexemes (depth + 1) true
    rw [Stmt.text_forLoop]
    cases test <;> cases update <;>
      simp [Stmt.lexemes, toList_line, hinit, htest, hupdate, hbody _, Expr.optText]
  | .whileLoop test body =>
    have htest := test.make_lexemes depth []
    have hbody := body.make_lexemes (depth + 1) true
    simp [Stmt.lexemes, Stmt.text, toList_line, htest, hbody _]
  | .block stmts =>
    cases braced with
    | true => exact Stmt.make_listLexemes depth stmts rest
    | false =>
      have hstmts := Stmt.make_listLexemes (depth + 1) stmts
      simp [Stmt.lexemes, Stmt.text, toList_line, hstmts _]
  | .ret none | .breakLoop | .continueLoop | .empty => simp [Stmt.lexemes, Stmt.text, toList_line]
  | .ret (some e) =>
    have he := e.make_lexemes depth [' ']
    simp [Stmt.lexemes, Stmt.text, toList_line, he]
  | .func f =>
    have hf := f.make_lexemes depth (newline depth)
    simp [Stmt.lexemes, Stmt.text, toList_line, hf]

theorem Stmt.make_listLexemes (depth : Nat) (stmts : List Stmt) :
    MakeLines (Stmt.listLexemes depth stmts) (Stmt.lines depth stmts) := by
  intro rest
  match stmts with
  | [] => rfl
  | s :: stmts =>
    have hs := s.make_lexemes depth false
    have hstmts := Stmt.make_listLexemes depth stmts
    simp [Stmt.listLexemes, Stmt.lines, hs _, hstmts _]

theorem Stmt.make_elseLexemes (depth : Nat) (alternate : Option Stmt) :
    MakeLines (Stmt.elseLexemes depth alternate) (Stmt.elseText depth alternate) := by
  match alternate with
  | none =>
    intro rest
    simp [Stmt.elseLexemes, Stmt.elseText, toList_line]
  | some (.branch test consequent alternate) =>
    intro rest
    have htest := test.make_lexemes depth []
    have hconsequent := consequent.make_lexemes (depth + 1) true
    have halternate := Stmt.make_elseLexemes depth alternate
    simp [Stmt.elseLexemes, Stmt.elseText, toList_line, htest, hconsequent _, halternate _]
  | some (.decl _) | some (.expr _) | some (.forLoop ..) | some (.whileLoop ..) | some (.block _)
  | some (.ret _) | some .breakLoop | some .continueLoop | some (.func _) | some .empty =>
    exact Stmt.make_else nofun (Stmt.make_lexemes (depth + 1) true _)

theorem ForInit.spell_optLexemes (depth : Nat) (init : Option ForInit) :
    spell (ForInit.optLexemes depth init) = (ForInit.optText depth init).toList := by
  match init with
  | none => rfl
  | some (.decl d) => exact d.make_lexemes depth []
  | some (.expr e) => exact e.make_lexemes depth []

theorem Decl.make_lexemes (depth : Nat) (d : Decl) : Make (d.lexemes depth) (d.text depth) := by
  intro lead
  match d with
  | ⟨kind, []⟩ =>
    simp [Decl.lexemes, Decl.text, Declarator.texts, commaSeparated, TokenKind.spelling]
  | ⟨kind, d :: rest⟩ =>
    have hds := spell_separated (Declarator.make_listLexemes depth (d :: rest)) [' ']
    have hne : (Declarator.listLexemes depth (d :: rest)).isEmpty = false := by
      obtain ⟨_, _ | _, _⟩ := d <;> rfl
    simp [Decl.lexemes, Decl.text, hds, hne]

theorem Declarator.make_listLexemes (depth : Nat) (ds : List Declarator) :
    List.Forall₂ Make (Declarator.listLexemes depth ds) (Declarator.texts depth ds) := by
  match ds with
  | [] => exact .nil
  | ⟨target, none, _⟩ :: rest =>
    exact .cons (make_pattern target) (Declarator.make_listLexemes depth rest)
  | ⟨target, some e, _⟩ :: rest =>
    refine .cons (fun lead => ?_) (Declarator.make_listLexemes depth rest)
    have he := e.make_lexemes depth [' ']
    simp [make_pattern target lead, he]

end

/-! ## Fixed scripts, compiled and read again -/

theorem Program.text_toList (p : Program) :
    p.text.toList = spell (p.root.lexemes 0 []) ++ ['\n'] := by
  rw [p.root.make_lexemes 0 []]
  exact String.toList_append ..

section Fixed

variable {options : Options} {s : String} {cs : List Char}

/-- The artifact of a fixed text, read by the characters that its text is made of. -/
theorem gives_program {test : Program → Bool} (hs : s.toList = cs)
    (h : Except.gives (fun p => Except.gives (fun r =>
      Except.gives test (parseChars (spell (r.1.root.lexemes 0 []) ++ ['\n'])))
      (p.compiled options)) (parseChars cs) = true) :
    Except.gives (fun a => Except.gives test a.program) (compile options s) = true := by
  unfold compile
  rw [parse_of_toList hs]
  obtain ⟨p, hp, h⟩ := Except.exists_of_gives h
  obtain ⟨⟨q, counters⟩, hq, h⟩ := Except.exists_of_gives h
  rw [hp]
  show Except.gives _ (p.compiled options >>= _) = true
  rw [hq]
  exact gives_parse q.text_toList h

theorem gives_compileAndBind {test : Indicator → Bool} (hs : s.toList = cs)
    (h : Except.gives (fun p => Except.gives (fun r =>
      Except.gives (fun b => test (.ofProgram b receiver))
        (parseChars (spell (r.1.root.lexemes 0 []) ++ ['\n'])))
      (p.compiled options)) (parseChars cs) = true) :
    Except.gives test (Indicator.compileAndBind options s receiver) = true := by
  obtain ⟨a, ha, hbound⟩ := Except.exists_of_gives (gives_program hs h)
  obtain ⟨b, hb, hb'⟩ := Except.exists_of_gives hbound
  have hb : parse a.source = .ok b := hb
  unfold Indicator.compileAndBind
  rw [ha]
  show Except.gives test (parse a.source >>= _) = true
  rw [hb]
  exact hb'

end Fixed

end BarScript

import BarScript.Proofs.RoundTrip.Reading
import BarScript.Script.Printer

/-!
# Functions and statements that the parser reads

The rules for patterns, declarations, functions and statements, stated like those
for expressions in `BarScript.Proofs.RoundTrip.Reading`. A branch without `else` is
the only statement that could take a token behind it for its own, so a statement is
read in front of anything else, and a block in front of everything.
-/

namespace BarScript

open List TokenKind

namespace Parser

open Cursor Grammar

variable {α : Type} {c : Cursor} {t u : Token} {ts us : List Token} {e : Expr}

/-! ## Patterns -/

theorem phrase_name {p : Grammar → Parser α} {after : TokenKind → Bool} (ht : t.kind = .word w)
    (h : ∀ {g : Grammar} {c : Cursor}, after c.token.kind = true →
      p g (before [t] c) = .ok (a, c)) :
    Phrase after p [t] a where
  balanced := balanced_nil.cons ht rfl
  starts := starts_cons ht rfl
  reads _ _ hc := h hc

theorem not_isMark_of_splits (hk : splits k = true) (hm : splits (.mark m) = false) :
    k.isMark m = false := by
  cases k with
  | mark n =>
    refine beq_false_of_ne ?_
    rintro rfl
    rw [hm] at hk
    cases hk
  | _ => rfl

theorem phrase_param (ht : t.kind = .word w) (hw : isReserved w = false) :
    Phrase splits (fun _ => param) [t] ⟨w, t.pos⟩ := by
  refine phrase_name ht fun {_ c} hc => ?_
  have hequals := not_isMark_of_splits hc (m := "=") (by decide)
  simp [param, bindingIdent_before ht hw, hequals]

theorem phrase_patternName (ht : t.kind = .word w) (hw : isReserved w = false) :
    Phrase splits (fun _ => patternProp) [t] (w, ⟨w, t.pos⟩) := by
  refine phrase_name ht fun {_ c} hc => ?_
  have hcolon := not_isMark_of_splits hc (m := ":") (by decide)
  simp [patternProp, ht, hw, hcolon]

theorem phrase_patternProp {v : Token} (ht : t.kind = .word x) (hu : u.kind = .mark ":")
    (hv : v.kind = .word w) (hw : isReserved w = false) :
    Phrase splits (fun _ => patternProp) [t, u, v] (x, ⟨w, v.pos⟩) where
  balanced := ((balanced_nil.cons hv rfl).cons hu (by decide)).cons ht rfl
  starts := starts_cons ht rfl
  reads _ _ _ := by simp [patternProp, ht, hu, bindingIdent_before hv hw]

/-- The tokens of an array pattern between its brackets. -/
inductive Places : List Token → List (Option Ident) → Prop where
  | nil : Places [] []
  | one {t : Token} {w : String} : t.kind = .word w → isReserved w = false →
    Places [t] [some ⟨w, t.pos⟩]
  | hole {t : Token} {ts : List Token} {items : List (Option Ident)} : t.kind = .mark "," →
    Places ts items → Places (t :: ts) (none :: items)
  | name {t u : Token} {ts : List Token} {w : String} {items : List (Option Ident)} :
    t.kind = .word w → isReserved w = false → u.kind = .mark "," → Places ts items →
    Places (t :: u :: ts) (some ⟨w, t.pos⟩ :: items)

namespace Places

variable {items : List (Option Ident)}

theorem balanced (h : Places ts items) : Balanced ts := by
  induction h with
  | nil => exact balanced_nil
  | one ht _ => exact balanced_nil.cons ht rfl
  | hole ht _ ih => exact ih.cons ht (by decide)
  | name ht _ hu _ ih => exact (ih.cons hu (by decide)).cons ht rfl

theorem reads (h : Places ts items) {fuel : Nat} (hfuel : ts.length < fuel)
    (hc : c.token.kind = .mark "]") : patternItems fuel (before ts c) = .ok (items, c) := by
  induction h generalizing fuel with
  | nil =>
    obtain ⟨fuel, rfl⟩ : ∃ n, fuel = n + 1 := ⟨fuel - 1, by omega⟩
    simp [patternItems, hc]
  | one ht hw =>
    obtain ⟨fuel, rfl⟩ : ∃ n, fuel = n + 1 := ⟨fuel - 1, by omega⟩
    simp [patternItems, ht, bindingIdent_before ht hw, hc]
  | hole ht _ ih =>
    rw [length_cons] at hfuel
    obtain ⟨fuel, rfl⟩ : ∃ n, fuel = n + 1 := ⟨fuel - 1, by omega⟩
    have hrest := @ih fuel (by omega)
    simp [patternItems, ht, hrest]
  | name ht hw hu _ ih =>
    rw [length_cons, length_cons] at hfuel
    obtain ⟨fuel, rfl⟩ : ∃ n, fuel = n + 1 := ⟨fuel - 1, by omega⟩
    have hrest := @ih fuel (by omega)
    simp [patternItems, ht, bindingIdent_before ht hw, hu, hrest]

end Places

/-- Tokens that are read as a target, whatever stands behind them. -/
abbrev Target (ts : List Token) (p : Pattern) : Prop :=
  Phrase (fun _ => true) (fun g => Parser.pattern g.size) ts p

theorem target_ident (ht : t.kind = .word w) (hw : isReserved w = false) :
    Target [t] (.ident ⟨w, t.pos⟩) := by
  refine phrase_name ht fun {_ c} _ => ?_
  simp [Parser.pattern, ht, bindingIdent_before ht hw]

theorem target_object (h : Separated splits (fun _ => patternProp) ts props)
    (ht : t.kind = .mark "\x7b") (hu : u.kind = .mark "\x7d") :
    Target (t :: (ts ++ [u])) (.object props) where
  balanced := h.balanced.enclosed ht hu (by decide)
  starts := starts_cons ht (by decide)
  reads {size depth c} hsize hdepth _ := by
    simp only [length_cons, length_append, length_nil] at hsize hdepth
    have hprops : commaList "\x7d" patternProp (level size depth).size (before ts (before [u] c)) =
        .ok (props, before [u] c) :=
      h.reads (by decide) size depth (by omega) (by omega) (show ts.length < size by omega) hu
    simp [Parser.pattern, ht, hprops, hu]

theorem target_array (h : Places ts items) (ht : t.kind = .mark "[") (hu : u.kind = .mark "]") :
    Target (t :: (ts ++ [u])) (.array items) where
  balanced := h.balanced.enclosed ht hu (by decide)
  starts := starts_cons ht (by decide)
  reads {size depth c} hsize _ _ := by
    simp only [length_cons, length_append, length_nil] at hsize
    have hitems : patternItems (level size depth).size (before ts (before [u] c)) =
        .ok (items, before [u] c) :=
      h.reads (show ts.length < size by omega) hu
    simp [Parser.pattern, ht, hitems, hu]

/-! ## Declarations -/

def lists (k : TokenKind) : Bool :=
  k.isMark "," || k.isMark ";"

theorem ends_of_lists (hk : lists k = true) : k.ends = true := by
  cases k with
  | mark m =>
    simp only [lists, isMark_mark, Bool.or_eq_true, beq_iff_eq] at hk
    rcases hk with rfl | rfl <;> decide
  | _ => cases hk

theorem not_equals_of_lists (hk : lists k = true) : k.isMark "=" = false := by
  cases k with
  | mark m =>
    simp only [lists, isMark_mark, Bool.or_eq_true, beq_iff_eq] at hk
    rcases hk with rfl | rfl <;> decide
  | _ => rfl

theorem declarator_ident {id : Ident} (h : Target ts (.ident id)) :
    ∃ pos, Phrase lists declarator ts ⟨.ident id, none, pos⟩ := by
  obtain ⟨t, us, rfl, -⟩ := h.starts
  refine ⟨t.pos, h.balanced, h.starts, fun {size depth c} hsize hdepth hc => ?_⟩
  have htarget : Parser.pattern (level size depth).size (before (t :: us) c) = .ok (.ident id, c) :=
    h.reads hsize hdepth rfl
  simp [declarator, htarget, not_equals_of_lists hc]

theorem declarator_init (h : Target ts p) (ht : t.kind = .mark "=") (he : Assignment us e) :
    ∃ pos, Phrase lists declarator (ts ++ t :: us) ⟨p, some e, pos⟩ := by
  obtain ⟨v, vs, rfl, -⟩ := h.starts
  refine ⟨v.pos, h.balanced.append (he.balanced.cons ht (by decide)), h.starts.append,
    fun {size depth c} hsize hdepth hc => ?_⟩
  simp only [length_append, length_cons] at hsize hdepth
  have htarget : Parser.pattern (level size depth).size (before (v :: vs) (before (t :: us) c)) =
      .ok (p, before (t :: us) c) :=
    h.reads (by simp; omega) (by simp; omega) rfl
  have hvalue : (level size depth).assignment (before us c) = .ok (e, c) :=
    he.reads (by omega) (by omega) (ends_of_lists hc)
  rw [before_append]
  cases p <;> simp [declarator, htarget, ht, hvalue]

/-- Tokens that are read as one declarator or more. -/
abbrev Declarators (ts : List Token) (ds : List Declarator) : Prop :=
  Separated lists declarator ts ds

namespace Declarators

variable {ds : List Declarator}

theorem reads (h : Declarators ts ds) (hne : ds ≠ []) {size depth fuel : Nat}
    (hsize : ts.length ≤ size)
    (hdepth : ts.length ≤ depth) (hfuel : ts.length ≤ fuel) (hc : c.token.kind = .mark ";") :
    (level size depth).declarators fuel (before ts c) = .ok (ds, c) := by
  induction h generalizing fuel with
  | nil => exact absurd rfl hne
  | one h =>
    have hpos := h.starts.length_pos
    obtain ⟨fuel, rfl⟩ : ∃ n, fuel = n + 1 := ⟨fuel - 1, by omega⟩
    have hd := h.reads hsize hdepth (c := c) (by rw [hc]; decide)
    simp [declarators, hd, hc]
  | cons h ht _ ih =>
    rename_i ts us t d d' ds _
    simp only [length_append, length_cons] at hsize hdepth hfuel
    obtain ⟨fuel, rfl⟩ : ∃ n, fuel = n + 1 := ⟨fuel - 1, by omega⟩
    have hd : (level size depth).declarator (before ts (before (t :: us) c)) =
        .ok (d, before (t :: us) c) :=
      h.reads (by omega) (by omega) (by rw [token_before_cons, ht]; decide)
    have hrest := @ih (cons_ne_nil _ _) fuel (by omega) (by omega) (by omega)
    simp [declarators, hd, ht, hrest]

theorem declaration (h : Declarators ts ds) (hne : ds ≠ []) (kind : DeclKind) {size depth : Nat}
    (hsize : ts.length ≤ size) (hdepth : ts.length ≤ depth) (hc : c.token.kind = .mark ";") :
    (level size depth).declaration kind (before (t :: ts) c) = .ok (⟨kind, ds⟩, c) := by
  have hds : (level size depth).declarators (level size depth).size (before ts c) = .ok (ds, c) :=
    h.reads hne hsize hdepth hsize hc
  simp [Grammar.declaration, hds]

end Declarators

/-! ## Statements -/

/-- The tokens that may stand behind a statement. -/
def separates (k : TokenKind) : Bool :=
  !k.isWord "else"

def beginsStatement (k : TokenKind) : Bool :=
  separates k && !k.isMark "\x7d" && !k.isEof

/-- Tokens that are read as a statement in front of one of the tokens `after`. -/
structure Statement (after : TokenKind → Bool) (ts : List Token) (s : Stmt) : Prop where
  balanced : Balanced ts
  starts : Starts beginsStatement ts
  reads : ∀ {size depth : Nat} {c : Cursor}, ts.length ≤ size → ts.length ≤ depth →
    after c.token.kind = true → (level size depth).statement (before ts c) = .ok (s, c)

/-- Statements, one after the other. -/
inductive Statements : List Token → List Stmt → Prop where
  | nil : Statements [] []
  | cons {ts us : List Token} {s : Stmt} {stmts : List Stmt} : Statement separates ts s →
    Statements us stmts → Statements (ts ++ us) (s :: stmts)

namespace Statements

variable {stmts : List Stmt}

theorem balanced (h : Statements ts stmts) : Balanced ts := by
  induction h with
  | nil => exact balanced_nil
  | cons h _ ih => exact h.balanced.append ih

theorem reads (h : Statements ts stmts) {size depth fuel : Nat} (hsize : ts.length ≤ size)
    (hdepth : ts.length ≤ depth) (hfuel : ts.length < fuel) (hc : c.token.kind = .mark "\x7d") :
    statements (level size depth).statement fuel (before ts c) = .ok (stmts, c) := by
  induction h generalizing fuel with
  | nil =>
    obtain ⟨fuel, rfl⟩ : ∃ n, fuel = n + 1 := ⟨fuel - 1, by omega⟩
    simp [statements, hc]
  | cons h hrest ih =>
    rename_i ts us s stmts
    simp only [length_append] at hsize hdepth hfuel
    have hpos := h.starts.length_pos
    obtain ⟨fuel, rfl⟩ : ∃ n, fuel = n + 1 := ⟨fuel - 1, by omega⟩
    have hnext : separates (before us c).token.kind = true := by
      cases hrest with
      | nil => rw [before_nil, hc]; decide
      | cons h' _ =>
        exact (Bool.and_eq_true_iff.1 (Bool.and_eq_true_iff.1 h'.starts.append.token).1).1
    have hs : (level size depth).statement (before ts (before us c)) = .ok (s, before us c) :=
      h.reads (by omega) (by omega) hnext
    have hbegins := h.starts.token (c := before us c)
    simp only [beginsStatement, Bool.and_eq_true, Bool.not_eq_true'] at hbegins
    have hstmts := @ih fuel (by omega) (by omega) (by omega)
    simp [statements, hbegins.1.2, hbegins.2, hs, hstmts]

theorem append (h : Statements ts stmts) (h' : Statements us stmts') :
    Statements (ts ++ us) (stmts ++ stmts') := by
  induction h with
  | nil => exact h'
  | cons h _ ih =>
    rw [append_assoc]
    exact .cons h ih

end Statements

/-! ## Functions -/

/-- Statements in braces. -/
def Braced (ts : List Token) (stmts : List Stmt) : Prop :=
  ∃ t us u, ts = t :: (us ++ [u]) ∧ t.kind = .mark "\x7b" ∧ Statements us stmts ∧
    u.kind = .mark "\x7d"

namespace Braced

variable {stmts : List Stmt}

theorem starts (h : Braced ts stmts) : ∃ t us, ts = t :: us ∧ t.kind = .mark "\x7b" := by
  obtain ⟨t, us, u, rfl, ht, -, -⟩ := h
  exact ⟨t, _, rfl, ht⟩

theorem balanced (h : Braced ts stmts) : Balanced ts := by
  obtain ⟨t, us, u, rfl, ht, h, hu⟩ := h
  exact h.balanced.enclosed ht hu (by decide)

theorem reads (h : Braced ts stmts) {size depth : Nat} (hsize : ts.length ≤ size)
    (hdepth : ts.length ≤ depth + 2) : (level size depth).block (before ts c) = .ok (stmts, c) := by
  obtain ⟨t, us, u, rfl, ht, h, hu⟩ := h
  simp only [length_cons, length_append, length_nil] at hsize hdepth
  have hstmts : statements (level size depth).statement (level size depth).size
      (before us (before [u] c)) = .ok (stmts, before [u] c) :=
    h.reads (by omega) (by omega) (show us.length < size by omega) hu
  simp [Grammar.block, ht, hstmts, hu]

end Braced

/-- Parameters in parentheses. -/
def Params (ts : List Token) (ids : List Ident) : Prop :=
  ∃ t us u, ts = t :: (us ++ [u]) ∧ t.kind = .mark "(" ∧
    Separated splits (fun _ => param) us ids ∧ u.kind = .mark ")"

namespace Params

variable {ids : List Ident} {v : Token}

theorem starts (h : Params ts ids) : ∃ t us, ts = t :: us ∧ t.kind = .mark "(" := by
  obtain ⟨t, us, u, rfl, ht, -, -⟩ := h
  exact ⟨t, _, rfl, ht⟩

theorem balanced (h : Params ts ids) : Balanced ts := by
  obtain ⟨t, us, u, rfl, ht, h, hu⟩ := h
  exact h.balanced.parens ht hu

theorem reads (h : Params ts ids) {size : Nat} (hsize : ts.length ≤ size) :
    params size (before (ts ++ us) c) = .ok (ids, before us c) := by
  obtain ⟨t, ts, u, rfl, ht, h, hu⟩ := h
  simp only [length_cons, length_append, length_nil] at hsize
  have hids : commaList ")" param size (before ts (before [u] (before us c))) =
      .ok (ids, before [u] (before us c)) :=
    h.reads (by decide) size size (by omega) (by omega) (by omega) hu
  rw [before_append]
  simp [Parser.params, ht, hids, hu]

/-- An arrow function is recognised by what follows its parameters. -/
theorem arrowAhead (h : Params ts ids) (hv : v.kind = .mark "=>")
    (hline : v.newlineBefore = false) :
    arrowAhead (before (ts ++ v :: us) c) = .ok (true, before (ts ++ v :: us) c) := by
  obtain ⟨t, ts, u, rfl, ht, h, hu⟩ := h
  have hcloses : closesBeforeArrow 0 (t :: (ts ++ [u]) ++ v :: us ++ c.token :: c.rest) = true := by
    have hopen : closesBeforeArrow 0 (t :: (ts ++ [u]) ++ v :: us ++ c.token :: c.rest) =
        closesBeforeArrow 1 (ts ++ u :: v :: (us ++ c.token :: c.rest)) := by
      simp [closesBeforeArrow, ht]
    rw [hopen, h.balanced]
    simp [closesBeforeArrow, hu, hv, hline]
  exact (arrowAhead_paren (c := before (t :: (ts ++ [u]) ++ v :: us) c) ht).trans
    (by rw [← hcloses]; rfl)

end Params

/-- Tokens that a rule reads as a function in front of one of the tokens `after`. -/
structure FuncRule (after : TokenKind → Bool) (p : Grammar → Parser Func)
    (ts : List Token) (f : Func) :
    Prop where
  balanced : Balanced ts
  reads : ∀ {size depth : Nat} {c : Cursor}, ts.length ≤ size → ts.length ≤ depth + 1 →
    after c.token.kind = true → p (level size depth) (before ts c) = .ok (f, c)

section Functions

variable {ids : List Ident} {stmts : List Stmt} {ps bs : List Token}

theorem arrow_expr (h : Params ps ids) (ht : t.kind = .mark "=>") (he : Assignment us e)
    (hbrace : Starts (fun k => !k.isMark "\x7b") us) :
    ∃ pos, FuncRule ends arrowFunction (ps ++ t :: us) ⟨none, ids, .expr e, .arrow, pos⟩ := by
  obtain ⟨t₁, ps, rfl, ht₁⟩ := h.starts
  refine ⟨t₁.pos, h.balanced.append (he.balanced.cons ht (by decide)),
    fun {size depth c} hsize hdepth hc => ?_⟩
  simp only [length_cons, length_append] at hsize hdepth
  have hids : params (level size depth).size (before (t₁ :: (ps ++ t :: us)) c) =
      .ok (ids, before (t :: us) c) := h.reads (show ps.length + 1 ≤ size by omega)
  have hvalue : (level size depth).assignment (before us c) = .ok (e, c) :=
    he.reads (by omega) (by omega) hc
  have hopen := hbrace.token (c := c)
  rw [Bool.not_eq_true'] at hopen
  simp [arrowFunction, ht₁, hids, ht, hopen, hvalue]

theorem arrow_block (h : Params ps ids) (ht : t.kind = .mark "=>") (hb : Braced bs stmts) :
    ∃ pos, FuncRule ends arrowFunction (ps ++ t :: bs) ⟨none, ids, .block stmts, .arrow, pos⟩ := by
  obtain ⟨t₁, ps, rfl, ht₁⟩ := h.starts
  refine ⟨t₁.pos, h.balanced.append (hb.balanced.cons ht (by decide)),
    fun {size depth c} hsize hdepth _ => ?_⟩
  simp only [length_cons, length_append] at hsize hdepth
  have hids : params (level size depth).size (before (t₁ :: (ps ++ t :: bs)) c) =
      .ok (ids, before (t :: bs) c) := h.reads (show ps.length + 1 ≤ size by omega)
  have hblock : (level size depth).block (before bs c) = .ok (stmts, c) :=
    hb.reads (by omega) (by omega)
  obtain ⟨t₂, bs, rfl, ht₂⟩ := hb.starts
  simp [arrowFunction, ht₁, hids, ht, ht₂, hblock]

theorem classic_named {n : Token} (ht : t.kind = .word "function") (hn : n.kind = .word w)
    (hw : isReserved w = false) (h : Params ps ids) (hb : Braced bs stmts) :
    FuncRule (fun _ => true) classicFunction (t :: n :: (ps ++ bs))
      ⟨some ⟨w, n.pos⟩, ids, .block stmts, .classic, t.pos⟩ where
  balanced := ((h.balanced.append hb.balanced).cons hn rfl).cons ht rfl
  reads {size depth c} hsize hdepth _ := by
    simp only [length_cons, length_append] at hsize hdepth
    have hids : params (level size depth).size (before ps (before bs c)) = .ok (ids, before bs c) :=
      before_append ps bs c ▸ h.reads (show ps.length ≤ size by omega)
    have hblock : (level size depth).block (before bs c) = .ok (stmts, c) :=
      hb.reads (by omega) (by omega)
    simp [classicFunction, expectWord, ht, hn, bindingIdent_before hn hw, hids, hblock]

theorem classic_anonymous (ht : t.kind = .word "function") (h : Params ps ids)
    (hb : Braced bs stmts) : FuncRule (fun _ => true) classicFunction (t :: (ps ++ bs))
      ⟨none, ids, .block stmts, .classic, t.pos⟩ where
  balanced := (h.balanced.append hb.balanced).cons ht rfl
  reads {size depth c} hsize hdepth _ := by
    obtain ⟨t₁, ps, rfl, ht₁⟩ := h.starts
    simp only [length_cons, length_append] at hsize hdepth
    have hids : params (level size depth).size (before (t₁ :: (ps ++ bs)) c) =
        .ok (ids, before bs c) := h.reads (show ps.length + 1 ≤ size by omega)
    have hblock : (level size depth).block (before bs c) = .ok (stmts, c) :=
      hb.reads (by omega) (by omega)
    simp [classicFunction, expectWord, ht, ht₁, hids, hblock]

end Functions

theorem Chain.func (ht : t.kind = .word "function")
    (h : FuncRule (fun _ => true) classicFunction (t :: ts) f) : Chain (t :: ts) (.func f) where
  balanced := h.balanced
  noArrow c _ := by
    rw [arrowAhead_word (show (before (t :: ts) c).token.kind = .word "function" from ht)]
    rfl
  starts := starts_cons ht rfl
  reads {size depth fuel c} hsize hdepth _ := by
    refine ⟨.func f, c, fuel, Nat.le_add_right _ _, ?_, rfl⟩
    simp [primary, ht, h.reads hsize hdepth rfl]

/-- Tokens that are read as a function. The first of them tells the style. -/
inductive FuncPhrase : FuncStyle → List Token → Func → Prop where
  | arrow {t : Token} {ts : List Token} {f : Func} : t.kind = .mark "(" →
    (∀ c, arrowAhead (before (t :: ts) c) = .ok (true, before (t :: ts) c)) →
    FuncRule ends arrowFunction (t :: ts) f → FuncPhrase .arrow (t :: ts) f
  | classic {t : Token} {ts : List Token} {f : Func} : t.kind = .word "function" →
    (f.name.isSome = true → ∃ n us w, ts = n :: us ∧ n.kind = .word w) →
    FuncRule (fun _ => true) classicFunction (t :: ts) f → FuncPhrase .classic (t :: ts) f

theorem FuncPhrase.graded {f : Func} (h : FuncPhrase f.style ts g) :
    Graded (Printer.strength (.func f)) ts (.func g) := by
  obtain ⟨name, params, body, style, pos⟩ := f
  cases h with
  | arrow ht harrow h =>
    refine .of_assignment (.of_rule h.balanced (starts_cons ht (by decide)) ?_)
      (show Printer.assignStrength ≤ 2 by decide)
    intro size depth c hsize hdepth hc
    simp [assignmentRule, harrow c, h.reads hsize hdepth hc]
  | classic ht _ h => exact .of_chain (.func ht h) (show 14 ≤ Printer.primaryStrength by decide)

/-! ## Kinds of statements -/

def anything (_ : TokenKind) : Bool := true

@[simp] theorem semicolon_before (hu : u.kind = .mark ";") :
    semicolon (before (u :: us) c) = .ok ((), before us c) := by
  simp [semicolon, hu]

/-- The tokens that begin an expression where a statement may stand. -/
def beginsLine : TokenKind → Bool
  | .word w => !isReserved w || beginsExpression w && w != "function"
  | k => opens k && !k.isMark "\x7b"

theorem Assignment.parenthesized (h : Assignment ts e) (ht : t.kind = .mark "(")
    (hu : u.kind = .mark ")")
    {size depth : Nat} (hsize : ts.length ≤ size) (hdepth : ts.length ≤ depth) :
    (level size depth).parenthesized (before (t :: (ts ++ u :: us)) c) = .ok (e, before us c) := by
  have he : (level size depth).expression (before ts (before (u :: us) c)) =
      .ok (e, before (u :: us) c) :=
    h.expression hsize hdepth (m := ")") (by decide) (by decide) hu
  simp [Grammar.parenthesized, ht, he, hu]

theorem beginsStatement_of_beginsLine (k : TokenKind) (h : beginsLine k = true) :
    beginsStatement k = true := by
  cases k with
  | word w =>
    refine Bool.and_eq_true_iff.2 ⟨Bool.and_eq_true_iff.2 ⟨?_, rfl⟩, rfl⟩
    simp only [separates, isWord_word, Bool.not_eq_true', beq_eq_false_iff_ne]
    rintro rfl
    cases h
  | mark m =>
    have hclose := not_isMark_of_opens (Bool.and_eq_true_iff.1 h).1 (m := "\x7d") (by decide)
    simp [beginsStatement, separates, isEof, hclose]
  | eof => cases h
  | _ => rfl

theorem statementRule_expression {g : Grammar} (h : beginsLine c.token.kind = true) :
    g.statementRule c = g.expressionStatement c := by
  cases hk : c.token.kind with
  | word w =>
    rw [hk] at h
    rcases Bool.or_eq_true_iff.1 h with hw | hw
    · have hw : isReserved w = false := by simpa using hw
      have hne : ∀ v, isReserved v = true → w ≠ v := by
        rintro v hv rfl
        rw [hv] at hw
        cases hw
      simp [statementRule, hk, wordStatement, declKind?, hne "const" (by decide),
        hne "let" (by decide), hne "var" (by decide), hne "if" (by decide), hne "for" (by decide),
        hne "while" (by decide), hne "return" (by decide), hne "break" (by decide),
        hne "continue" (by decide), hne "function" (by decide), hw]
    · obtain ⟨hmem, hfunction⟩ := Bool.and_eq_true_iff.1 hw
      have hmem := contains_iff_mem.1 hmem
      simp only [mem_cons, not_mem_nil, or_false] at hmem
      rcases hmem with rfl | rfl | rfl | rfl | rfl | rfl
      on_goal 6 => cases hfunction
      all_goals simp [statementRule, hk, wordStatement, declKind?, beginsExpression]
  | mark m =>
    rw [hk] at h
    obtain ⟨hopens, hbrace⟩ := Bool.and_eq_true_iff.1 h
    have hsemicolon := not_isMark_of_opens hopens (m := ";") (by decide)
    rw [isMark_mark, beq_eq_false_iff_ne] at hsemicolon
    rw [isMark_mark, Bool.not_eq_true', beq_eq_false_iff_ne] at hbrace
    simp [statementRule, hk, hsemicolon, hbrace]
  | eof =>
    rw [hk] at h
    cases h
  | _ => simp [statementRule, hk]

namespace Statement

variable {after : TokenKind → Bool} {s : Stmt} {t₀ t₁ t₂ t₃ : Token}

theorem of_rule (hbalanced : Balanced ts) (hstarts : Starts beginsStatement ts)
    (h : ∀ {size depth : Nat} {c : Cursor}, ts.length ≤ size → ts.length ≤ depth + 1 →
      after c.token.kind = true → (level size depth).statementRule (before ts c) = .ok (s, c)) :
    Statement after ts s where
  balanced := hbalanced
  starts := hstarts
  reads {size depth c} hsize hdepth hc := by
    have hpos := hstarts.length_pos
    obtain ⟨depth, rfl⟩ : ∃ d, depth = d + 1 := ⟨depth - 1, by omega⟩
    exact h hsize hdepth hc

theorem before_anything (h : Statement anything ts s) : Statement after ts s :=
  ⟨h.balanced, h.starts, fun hsize hdepth _ => h.reads hsize hdepth rfl⟩

theorem block {stmts : List Stmt} (h : Braced ts stmts) : Statement anything ts (.block stmts) := by
  obtain ⟨t, us, rfl, ht⟩ := h.starts
  refine of_rule h.balanced (starts_cons ht (by decide)) fun {size depth c} hsize hdepth _ => ?_
  have hblock : (level size depth).block (before (t :: us) c) = .ok (stmts, c) :=
    h.reads hsize (by omega)
  simp [statementRule, ht, hblock]

theorem empty (ht : t.kind = .mark ";") : Statement anything [t] .empty := by
  refine of_rule (balanced_nil.cons ht (by decide)) (starts_cons ht (by decide))
    fun {size depth c} _ _ _ => ?_
  simp [statementRule, ht]

theorem decl {kind : DeclKind} (ht : t.kind = .word kind.keyword)
    (h : Declarators ts ds) (hne : ds ≠ []) (hu : u.kind = .mark ";") :
    Statement anything (t :: (ts ++ [u])) (.decl ⟨kind, ds⟩) := by
  refine of_rule (h.balanced.enclosed ht hu (by cases kind <;> decide))
    (starts_cons ht (by cases kind <;> decide))
    fun {size depth c} hsize hdepth _ => ?_
  simp only [length_cons, length_append] at hsize hdepth
  have hkind : declKind? (.word kind.keyword) = some kind := by cases kind <;> decide
  have hdecl : (level size depth).declaration kind (before (t :: ts) (before [u] c)) =
      .ok (⟨kind, ds⟩, before [u] c) := h.declaration hne kind (by omega) (by omega) hu
  rw [← before_append, cons_append] at hdecl
  simp [statementRule, ht, wordStatement, hkind, hdecl, hu]

theorem expr (h : Assignment ts e) (hline : Starts beginsLine ts) (hu : u.kind = .mark ";") :
    Statement anything (ts ++ [u]) (.expr e) := by
  refine of_rule (h.balanced.append (balanced_nil.cons hu (by decide)))
    (hline.mono beginsStatement_of_beginsLine).append fun {size depth c} hsize hdepth _ => ?_
  simp only [length_append, length_singleton] at hsize hdepth
  have he : (level size depth).expression (before ts (before [u] c)) = .ok (e, before [u] c) :=
    h.expression (by omega) (by omega) (by decide) (by decide) hu
  rw [statementRule_expression hline.append.token]
  simp [expressionStatement, he, hu]

theorem ret (ht : t.kind = .word "return") (hu : u.kind = .mark ";") :
    Statement anything [t, u] (.ret none) := by
  refine of_rule ((balanced_nil.cons hu (by decide)).cons ht rfl) (starts_cons ht (by decide))
    fun {size depth c} _ _ _ => ?_
  simp [statementRule, ht, wordStatement, declKind?, returned, hu]

theorem retSome (ht : t.kind = .word "return")
    (h : Assignment (v :: vs) e) (hline : v.newlineBefore = false) (hu : u.kind = .mark ";") :
    Statement anything (t :: v :: (vs ++ [u])) (.ret (some e)) := by
  have hopens := h.starts.token (c := ⟨v, []⟩)
  have hsemicolon : v.kind.isMark ";" = false := not_isMark_of_opens hopens (by decide)
  have hbrace : v.kind.isMark "\x7d" = false := not_isMark_of_opens hopens (by decide)
  have heof : v.kind.isEof = false := by
    cases hk : v.kind with
    | eof =>
      have hopens : opens v.kind = true := hopens
      rw [hk] at hopens
      cases hopens
    | _ => rfl
  refine of_rule (h.balanced.enclosed ht hu (by decide))
    (starts_cons ht (by decide)) fun {size depth c} hsize hdepth _ => ?_
  simp only [length_cons, length_append] at hsize hdepth
  have he : (level size depth).expression (before (v :: vs) (before [u] c)) =
      .ok (e, before [u] c) :=
    h.expression (by simp; omega) (by simp; omega) (by decide) (by decide) hu
  rw [← before_append, cons_append] at he
  simp [statementRule, ht, wordStatement, declKind?, returned, hsemicolon,
    hbrace, hline, heof, he, hu]

theorem breakLoop (ht : t.kind = .word "break") (hu : u.kind = .mark ";") :
    Statement anything [t, u] .breakLoop := by
  refine of_rule ((balanced_nil.cons hu (by decide)).cons ht rfl) (starts_cons ht (by decide))
    fun {size depth c} _ _ _ => ?_
  simp [statementRule, ht, wordStatement, declKind?, hu]

theorem continueLoop (ht : t.kind = .word "continue") (hu : u.kind = .mark ";") :
    Statement anything [t, u] .continueLoop := by
  refine of_rule ((balanced_nil.cons hu (by decide)).cons ht rfl) (starts_cons ht (by decide))
    fun {size depth c} _ _ _ => ?_
  simp [statementRule, ht, wordStatement, declKind?, hu]

theorem func {n : Token} (ht : t.kind = .word "function") (hn : n.kind = .word w)
    (h : FuncRule (fun _ => true) classicFunction (t :: n :: ts) f) :
    Statement anything (t :: n :: ts) (.func f) := by
  refine of_rule h.balanced (starts_cons ht (by decide)) fun {size depth c} hsize hdepth _ => ?_
  have hnext : peekNext (before (t :: n :: ts) c) = .ok (n, before (t :: n :: ts) c) := rfl
  simp [statementRule, ht, wordStatement, declKind?, hnext, hn, h.reads hsize hdepth rfl]

/-- A keyword, an expression in parentheses, and what the keyword asks for behind it. -/
theorem of_test (ht : t.kind = .word w) (hw : beginsStatement (.word w) = true)
    (ht₁ : t₁.kind = .mark "(") (h : Assignment ts e) (ht₂ : t₂.kind = .mark ")")
    (hus : Balanced us)
    (hrule : ∀ {size depth : Nat} {c : Cursor}, us.length ≤ size → us.length ≤ depth →
      after c.token.kind = true →
      (level size depth).parenthesized (before (t₁ :: (ts ++ t₂ :: us)) c) = .ok (e, before us c) →
      (level size depth).statementRule (before (t :: t₁ :: (ts ++ t₂ :: us)) c) = .ok (s, c)) :
    Statement after (t :: t₁ :: (ts ++ t₂ :: us)) s := by
  have hbalanced : Balanced (t₁ :: (ts ++ t₂ :: us)) := by
    simpa using (h.balanced.parens ht₁ ht₂).append hus
  refine of_rule (hbalanced.cons ht rfl) (starts_cons ht hw)
    fun {size depth c} hsize hdepth hc => ?_
  simp only [length_cons, length_append] at hsize hdepth
  exact hrule (by omega) (by omega) hc (h.parenthesized ht₁ ht₂ (by omega) (by omega))

theorem whileLoop (ht : t.kind = .word "while") (ht₁ : t₁.kind = .mark "(") (h : Assignment ts e)
    (ht₂ : t₂.kind = .mark ")") (hs : Statement after us s) :
    Statement after (t :: t₁ :: (ts ++ t₂ :: us)) (.whileLoop e s) := by
  refine of_test ht (by decide) ht₁ h ht₂ hs.balanced fun {size depth c} hsize hdepth hc htest => ?_
  have hbody : (level size depth).statement (before us c) = .ok (s, c) := hs.reads hsize hdepth hc
  simp [statementRule, ht, wordStatement, declKind?, htest, hbody]

theorem branch (ht : t.kind = .word "if") (ht₁ : t₁.kind = .mark "(") (h : Assignment ts e)
    (ht₂ : t₂.kind = .mark ")") (hs : Statement anything us s) :
    Statement separates (t :: t₁ :: (ts ++ t₂ :: us)) (.branch e s none) := by
  refine of_test ht (by decide) ht₁ h ht₂ hs.balanced fun {size depth c} hsize hdepth hc htest => ?_
  have hbody : (level size depth).statement (before us c) = .ok (s, c) := hs.reads hsize hdepth rfl
  have helse : c.token.kind.isWord "else" = false := by simpa [separates] using hc
  simp [statementRule, ht, wordStatement, declKind?, Grammar.branch, htest, hbody, helse]

theorem branchElse (ht : t.kind = .word "if") (ht₁ : t₁.kind = .mark "(")
    (h : Assignment ts e) (ht₂ : t₂.kind = .mark ")") (hs : Statement anything us s)
    (ht₃ : t₃.kind = .word "else") (hs' : Statement after vs s') :
    Statement after (t :: t₁ :: (ts ++ t₂ :: (us ++ t₃ :: vs))) (.branch e s (some s')) := by
  refine of_test ht (by decide) ht₁ h ht₂ (hs.balanced.append (hs'.balanced.cons ht₃ rfl))
    fun {size depth c} hsize hdepth hc htest => ?_
  simp only [length_append, length_cons] at hsize hdepth
  have hbody : (level size depth).statement (before us (before (t₃ :: vs) c)) =
      .ok (s, before (t₃ :: vs) c) := hs.reads (by omega) (by omega) rfl
  have hother : (level size depth).statement (before vs c) = .ok (s', c) :=
    hs'.reads (by omega) (by omega) hc
  simp [statementRule, ht, wordStatement, declKind?, Grammar.branch, htest, hbody, ht₃, hother]

end Statement

/-! ## Counting loops -/

/-- Tokens that a rule reads in front of a mark. -/
structure Part (m : String) (p : Grammar → Parser α) (ts : List Token) (a : α) : Prop where
  balanced : Balanced ts
  reads : ∀ {size depth : Nat} {c : Cursor}, ts.length ≤ size → ts.length ≤ depth →
    c.token.kind = .mark m → p (level size depth) (before ts c) = .ok (a, c)

namespace Part

theorem none (m : String) : Part m (fun g => g.before? m) [] none where
  balanced := balanced_nil
  reads _ _ hc := by simp [before?, hc]

theorem some (h : Assignment ts e) (hm : (mark m).ends = true)
    (hcomma : m ≠ ",") : Part m (fun g => g.before? m) ts (some e) where
  balanced := h.balanced
  reads {size depth c} hsize hdepth hc := by
    have hnot := not_isMark_of_opens (h.starts.token (c := c)) hm
    have he : (level size depth).expression (before ts c) = .ok (e, c) :=
      h.expression hsize hdepth hm hcomma hc
    simp [before?, hnot, he]

theorem noInit : Part ";" forInit [] .none where
  balanced := balanced_nil
  reads _ _ hc := by simp [forInit, hc]

theorem initDecl {kind : DeclKind} (ht : t.kind = .word kind.keyword)
    (h : Declarators ts ds) (hne : ds ≠ []) :
    Part ";" forInit (t :: ts) (.some (.decl ⟨kind, ds⟩)) where
  balanced := h.balanced.cons ht rfl
  reads {size depth c} hsize hdepth hc := by
    rw [length_cons] at hsize hdepth
    have hkind : declKind? (.word kind.keyword) = .some kind := by cases kind <;> decide
    have hdecl : (level size depth).declaration kind (before (t :: ts) c) = .ok (⟨kind, ds⟩, c) :=
      h.declaration hne kind (by omega) (by omega) hc
    simp [forInit, ht, hkind, hdecl]

theorem initExpr (h : Assignment ts e) (hstarts : Starts (fun k => (declKind? k).isNone) ts) :
    Part ";" forInit ts (.some (.expr e)) where
  balanced := h.balanced
  reads {size depth c} hsize hdepth hc := by
    have hnot := not_isMark_of_opens (h.starts.token (c := c)) (m := ";") (by decide)
    have hkind := Option.isNone_iff_eq_none.1 (hstarts.token (c := c))
    have he : (level size depth).expression (before ts c) = .ok (e, c) :=
      h.expression hsize hdepth (by decide) (by decide) hc
    simp [forInit, hnot, hkind, he]

end Part

theorem Statement.forLoop {after : TokenKind → Bool} {s : Stmt} {t₁ t₂ t₃ t₄ : Token}
    {ts₁ ts₂ ts₃ : List Token} {init : Option ForInit} {test update : Option Expr}
    (ht : t.kind = .word "for") (ht₁ : t₁.kind = .mark "(") (hinit : Part ";" forInit ts₁ init)
    (ht₂ : t₂.kind = .mark ";") (htest : Part ";" (fun g => g.before? ";") ts₂ test)
    (ht₃ : t₃.kind = .mark ";") (hupdate : Part ")" (fun g => g.before? ")") ts₃ update)
    (ht₄ : t₄.kind = .mark ")") (hs : Statement after us s) :
    Statement after (t :: t₁ :: (ts₁ ++ t₂ :: (ts₂ ++ t₃ :: (ts₃ ++ t₄ :: us))))
      (.forLoop init test update s) := by
  have hheader : Balanced (t₁ :: ((ts₁ ++ t₂ :: (ts₂ ++ t₃ :: ts₃)) ++ [t₄])) :=
    (hinit.balanced.append ((htest.balanced.append
      (hupdate.balanced.cons ht₃ (by decide))).cons ht₂ (by decide))).parens ht₁ ht₄
  have hbalanced : Balanced (t₁ :: (ts₁ ++ t₂ :: (ts₂ ++ t₃ :: (ts₃ ++ t₄ :: us)))) := by
    simpa using hheader.append hs.balanced
  refine of_rule (hbalanced.cons ht rfl) (starts_cons ht (by decide))
    fun {size depth c} hsize hdepth hc => ?_
  simp only [length_cons, length_append] at hsize hdepth
  have hfirst : (level size depth).forInit
      (before ts₁ (before (t₂ :: (ts₂ ++ t₃ :: (ts₃ ++ t₄ :: us))) c)) =
      .ok (init, before (t₂ :: (ts₂ ++ t₃ :: (ts₃ ++ t₄ :: us))) c) :=
    hinit.reads (by omega) (by omega) ht₂
  have hsecond : (level size depth).before? ";" (before ts₂ (before (t₃ :: (ts₃ ++ t₄ :: us)) c)) =
      .ok (test, before (t₃ :: (ts₃ ++ t₄ :: us)) c) := htest.reads (by omega) (by omega) ht₃
  have hthird : (level size depth).before? ")" (before ts₃ (before (t₄ :: us) c)) =
      .ok (update, before (t₄ :: us) c) := hupdate.reads (by omega) (by omega) ht₄
  have hbody : (level size depth).statement (before us c) = .ok (s, c) :=
    hs.reads (by omega) (by omega) hc
  simp [statementRule, ht, wordStatement, declKind?, Grammar.forLoop, ht₁, hfirst, ht₂,
    hsecond, ht₃, hthird, ht₄, hbody]

/-! ## Programs -/

theorem program_classic {f : Func} {size : Nat} {last : Token} (ht : t.kind = .word "function")
    (h : FuncRule (fun _ => true) classicFunction (t :: ts) f) (hlast : last.kind = .eof)
    (hsize : (t :: ts).length ≤ size) (hparams : f.params.length = 1) :
    (grammar size).program (before (t :: ts) ⟨last, []⟩) = .ok (⟨f⟩, ⟨last, []⟩) := by
  have hroot : (grammar size).classicFunction (before (t :: ts) ⟨last, []⟩) = .ok (f, ⟨last, []⟩) :=
    @h.reads size (2 * size) _ hsize (by omega) rfl
  have harrow :=
    arrowAhead_word (show (before (t :: ts) ⟨last, []⟩).token.kind = .word "function" from ht)
  simp [program, ht, harrow, hroot, hlast, isMark, isEof, hparams]

theorem program_arrow {f : Func} {size : Nat} {last : Token} (ht : t.kind = .mark "(")
    (h : FuncRule ends arrowFunction (t :: ts) f) (hlast : last.kind = .eof)
    (harrow : arrowAhead (before (t :: ts) ⟨last, []⟩) = .ok (true, before (t :: ts) ⟨last, []⟩))
    (hsize : (t :: ts).length ≤ size) (hparams : f.params.length = 1) :
    (grammar size).program (before (t :: ts) ⟨last, []⟩) = .ok (⟨f⟩, ⟨last, []⟩) := by
  have hroot : (grammar size).arrowFunction (before (t :: ts) ⟨last, []⟩) = .ok (f, ⟨last, []⟩) :=
    @h.reads size (2 * size) _ hsize (by omega) (by rw [hlast]; rfl)
  simp [program, ht, harrow, hroot, hlast, isMark, isEof, hparams]

end Parser

end BarScript

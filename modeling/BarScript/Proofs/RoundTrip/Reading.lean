import Mathlib
import BarScript.Proofs.Gives
import BarScript.Script.Outline
import BarScript.Script.Parser

/-!
# What the parser reads

A text is read rule by rule, so what is known of the parser is a statement for
each rule: some tokens are read as an expression wherever they stand, if there is
room enough to nest and if the token behind them does not belong to them.
`Chain`, `Unary`, `Joined` and `Phrase` say so for the rules of expressions, from
names and calls up to assignments, and they are closed under what the language
allows to be written: if tokens are read, then so are the same tokens in
parentheses, two operands with an operator between them, and so on. Nothing here
says how a tree is printed.
-/

namespace BarScript

open List TokenKind

variable {m w : String} {j : Joint}

/-- The cursor at the first of some tokens, with another cursor behind them. -/
def Cursor.before (ts : List Token) (c : Cursor) : Cursor :=
  match ts with
  | [] => c
  | t :: ts => ⟨t, ts ++ c.token :: c.rest⟩

namespace Cursor

@[simp] theorem before_nil (c : Cursor) : before [] c = c := rfl

@[simp] theorem token_before_cons (t : Token) (ts : List Token) (c : Cursor) :
    (before (t :: ts) c).token = t := rfl

@[simp] theorem before_append (ts us : List Token) (c : Cursor) :
    before (ts ++ us) c = before ts (before us c) := by
  cases ts with
  | nil => rfl
  | cons t ts => cases us <;> simp [before]

end Cursor

namespace Parser

open Cursor

variable {α β : Type} {x : Parser α} {f : α → Parser β} {c : Cursor} {t u : Token}
  {ts us : List Token}

/-! ## Single tokens -/

@[simp] theorem bind_apply : (x >>= f) c = x c >>= fun r => f r.1 r.2 := rfl

@[simp] theorem ok_bind {ε : Type} {f : α → Except ε β} : (Except.ok a >>= f) = f a := rfl

@[simp] theorem pure_apply : (pure a : Parser α) c = .ok (a, c) := rfl

@[simp] theorem map_apply : (g <$> x) c = x c >>= fun r => .ok (g r.1, r.2) := rfl

@[simp] theorem get_apply : (get : Parser Cursor) c = .ok (c, c) := rfl

@[simp] theorem peek_apply : peek c = .ok (c.token, c) := rfl

@[simp] theorem advance_before : advance (before (t :: ts) c) = .ok (t, before ts c) := by
  cases ts <;> rfl

@[simp] theorem atMark_apply : atMark m c = .ok (c.token.kind.isMark m, c) := rfl

@[simp] theorem atWord_apply : atWord w c = .ok (c.token.kind.isWord w, c) := rfl

@[simp] theorem isMark_mark (m n : String) : (mark m).isMark n = (m == n) := rfl

@[simp] theorem isMark_word (w n : String) : (word w).isMark n = false := rfl

@[simp] theorem isWord_word (v w : String) : (word v).isWord w = (v == w) := rfl

@[simp] theorem isWord_mark (m w : String) : (mark m).isWord w = false := rfl

@[simp] theorem expectMark_before (ht : t.kind = .mark m) :
    expectMark m (before (t :: ts) c) = .ok ((), before ts c) := by
  simp [expectMark, ht]

@[simp] theorem eatMark_before (ht : t.kind = .mark m) :
    eatMark m (before (t :: ts) c) = .ok (true, before ts c) := by
  simp [eatMark, ht]

@[simp] theorem eatMark_apply (h : c.token.kind.isMark m = false) :
    eatMark m c = .ok (false, c) := by
  simp [eatMark, h]

theorem bindingIdent_before (ht : t.kind = .word w) (hw : isReserved w = false) :
    bindingIdent (before (t :: ts) c) = .ok (⟨w, t.pos⟩, before ts c) := by
  simp [bindingIdent, ht, hw]

end Parser

/-! ## What may stand behind a phrase -/

open BarScript.Parser BarScript.Parser.Grammar

def TokenKind.ends : TokenKind → Bool
  | .mark m => [")", "]", "\x7d", ",", ";", ":"].contains m
  | .eof => true
  | _ => false

def TokenKind.isLevel (k : TokenKind) : Bool :=
  !k.isMark "(" && !k.isMark ")"

/-- The tokens that begin an expression without an operator in front. -/
def TokenKind.isOperand (k : TokenKind) : Bool :=
  !k.ends && (unaryOp? k).isNone && (updateOp? k).isNone

/-- How strongly a token joins what stands before it to what stands behind. -/
def TokenKind.pull (k : TokenKind) (newline : Bool) : Nat :=
  if k.isMark "." || k.isMark "[" || k.isMark "(" then 17
  else if !newline && (updateOp? k).isSome then 15
  else match Joint.ofKind? k with
    | some j => j.precedence
    | none => if k.isMark "?" then 2 else if (assignOp? k).isSome then 1 else 0

/-- How strongly a token joins what stands before it to what stands behind. An
update on a line of its own is not one of what stands before it. -/
def Token.pull (t : Token) : Nat :=
  t.kind.pull t.newlineBefore

theorem TokenKind.pull_of_ends {k : TokenKind} (h : k.ends = true) (newline : Bool) :
    k.pull newline = 0 := by
  cases k with
  | mark m =>
    have hm : m ∈ [")", "]", "\x7d", ",", ";", ":"] := contains_iff_mem.1 h
    simp only [mem_cons, not_mem_nil, or_false] at hm
    rcases hm with rfl | rfl | rfl | rfl | rfl | rfl <;> revert newline <;> decide
  | eof => cases newline <;> rfl
  | _ => cases h

/-- The sign of an operator between two operands. -/
def Parser.Grammar.Joint.symbol : Joint → String
  | .binary op => op.symbol
  | .logical op => op.symbol

namespace Parser.Grammar.Joint

theorem ofKind?_symbol (j : Joint) : ofKind? (.mark j.symbol) = some j := by
  rcases j with op | op <;> cases op <;> rfl

theorem isLevel_symbol (j : Joint) : (mark j.symbol).isLevel = true := by
  rcases j with op | op <;> cases op <;> decide

theorem not_arrow_symbol (j : Joint) : (mark j.symbol).isMark "=>" = false := by
  rcases j with op | op <;> cases op <;> decide

/-- The sign of an operator joins as strongly as the operator binds. -/
theorem pull_symbol (j : Joint) (newline : Bool) :
    (mark j.symbol).pull newline = j.precedence := by
  rcases j with op | op <;> cases op <;> cases newline <;> decide

end Parser.Grammar.Joint

namespace Token

variable {t : Token}

theorem pull_of_ends (h : t.kind.ends = true) : t.pull = 0 :=
  TokenKind.pull_of_ends h t.newlineBefore

theorem not_access_of_pull (h : t.pull < 17) : t.kind.isMark "." = false ∧
    t.kind.isMark "[" = false ∧ t.kind.isMark "(" = false := by
  unfold pull TokenKind.pull at h
  split at h
  · omega
  · rename_i hmark
    simpa [and_assoc] using hmark

theorem not_update_of_pull (h : t.pull < 15) :
    t.newlineBefore = true ∨ updateOp? t.kind = none := by
  unfold pull TokenKind.pull at h
  split at h
  · omega
  · split at h
    · omega
    · rename_i hupdate
      cases hline : t.newlineBefore with
      | true => exact .inl rfl
      | false => exact .inr (by simpa [hline] using hupdate)

theorem precedence_le_pull (hj : Joint.ofKind? t.kind = some j) : j.precedence ≤ t.pull := by
  have hle : j.precedence ≤ 13 := by
    rcases j with op | op <;> cases op <;> decide
  unfold pull TokenKind.pull
  split
  · omega
  · split
    · omega
    · rw [hj]

theorem precedence_pos (j : Joint) : 0 < j.precedence := by
  rcases j with op | op <;> cases op <;> decide

theorem not_joint_of_pull (h : t.pull = 0) : Joint.ofKind? t.kind = none := by
  cases hj : Joint.ofKind? t.kind with
  | none => rfl
  | some j =>
    have := precedence_le_pull hj
    have := precedence_pos j
    omega

theorem not_choice_of_pull (h : t.pull = 0) :
    t.kind.isMark "?" = false ∧ assignOp? t.kind = none := by
  have hj := not_joint_of_pull h
  unfold pull TokenKind.pull at h
  split at h
  · omega
  · split at h
    · omega
    · rw [hj] at h
      by_cases hm : t.kind.isMark "?" = true
      · simp [hm] at h
      · simpa [hm] using h

end Token

namespace Parser

open Cursor Grammar

variable {α : Type} {c : Cursor} {t u : Token} {ts us : List Token} {e e' : Expr} {k : Nat}

/-! ## Looking for arrows -/

/-- Tokens whose parentheses are closed among them. -/
def Balanced (ts : List Token) : Prop :=
  ∀ d us, closesBeforeArrow (d + 1) (ts ++ us) = closesBeforeArrow (d + 1) us

theorem balanced_nil : Balanced [] := fun _ _ => rfl

theorem Balanced.append (h : Balanced ts) (h' : Balanced us) : Balanced (ts ++ us) := by
  intro d vs
  rw [append_assoc, h, h']

theorem Balanced.cons {k : TokenKind} (h : Balanced ts) (ht : t.kind = k) (hk : k.isLevel = true) :
    Balanced (t :: ts) := by
  intro d vs
  rw [← ht, isLevel, Bool.and_eq_true_iff, Bool.not_eq_true', Bool.not_eq_true'] at hk
  simp [closesBeforeArrow, hk.1, hk.2, h d vs]

/-- Tokens between brackets or braces. -/
theorem Balanced.enclosed {l r : TokenKind} (h : Balanced ts) (ht : t.kind = l) (hu : u.kind = r)
    (hlr : l.isLevel = true ∧ r.isLevel = true) : Balanced (t :: (ts ++ [u])) :=
  (h.append (balanced_nil.cons hu hlr.2)).cons ht hlr.1

theorem Balanced.parens (h : Balanced ts) (ht : t.kind = .mark "(") (hu : u.kind = .mark ")") :
    Balanced (t :: (ts ++ [u])) := by
  intro d vs
  have hopen : closesBeforeArrow (d + 1) (t :: (ts ++ [u]) ++ vs) =
      closesBeforeArrow (d + 2) (ts ++ u :: vs) := by
    simp [closesBeforeArrow, ht]
  rw [hopen, h]
  simp [closesBeforeArrow, hu]

/-- Tokens that do not begin an arrow function unless an arrow follows them. -/
def NoArrow (ts : List Token) : Prop :=
  ∀ c : Cursor, c.token.kind.isMark "=>" = false →
    arrowAhead (before ts c) = .ok (false, before ts c)

theorem NoArrow.append (h : NoArrow ts) (hu : u.kind.isMark "=>" = false) :
    NoArrow (ts ++ u :: us) := by
  intro c _
  rw [before_append]
  exact h _ hu

theorem arrowAhead_word (h : c.token.kind = .word w) :
    arrowAhead c = .ok (!isReserved w && (c.rest.headD c.token).kind.isMark "=>", c) := by
  obtain ⟨⟨kind, pos, newline⟩, rest⟩ := c
  cases h
  rfl

theorem arrowAhead_paren (h : c.token.kind = .mark "(") :
    arrowAhead c = .ok (closesBeforeArrow 0 (c.token :: c.rest), c) := by
  obtain ⟨⟨kind, pos, newline⟩, rest⟩ := c
  cases h
  rfl

theorem arrowAhead_mark (h : c.token.kind = .mark m) (hm : m ≠ "(") :
    arrowAhead c = .ok (false, c) := by
  obtain ⟨⟨kind, pos, newline⟩, rest⟩ := c
  cases h
  simp only [arrowAhead]
  simp [hm]

theorem noArrow_word (ht : t.kind = .word w) : NoArrow [t] := by
  intro c hc
  have hnext : ((before [t] c).rest.headD (before [t] c).token).kind.isMark "=>" = false := hc
  rw [arrowAhead_word (show (before [t] c).token.kind = .word w from ht), hnext, Bool.and_false]

theorem NoArrow.parens (h : Balanced ts) (ht : t.kind = .mark "(") (hu : u.kind = .mark ")") :
    NoArrow (t :: (ts ++ [u])) := by
  intro c hc
  have hcloses : closesBeforeArrow 0 (t :: (ts ++ [u] ++ c.token :: c.rest)) = false := by
    have hopen : closesBeforeArrow 0 (t :: (ts ++ [u] ++ c.token :: c.rest)) =
        closesBeforeArrow 1 (ts ++ u :: c.token :: c.rest) := by
      simp [closesBeforeArrow, ht]
    rw [hopen, h]
    simp [closesBeforeArrow, hu, hc]
  exact (arrowAhead_paren (c := before (t :: (ts ++ [u])) c) ht).trans (by rw [← hcloses]; rfl)

/-! ## Phrases -/

/-- Tokens of which the first one passes a test. -/
def Starts (p : TokenKind → Bool) (ts : List Token) : Prop :=
  ∃ t us, ts = t :: us ∧ p t.kind = true

theorem starts_cons {k : TokenKind} (ht : t.kind = k) (hk : p k = true) : Starts p (t :: ts) :=
  ⟨t, ts, rfl, ht ▸ hk⟩

theorem Starts.append (h : Starts p ts) : Starts p (ts ++ us) := by
  obtain ⟨t, vs, rfl, ht⟩ := h
  exact ⟨t, vs ++ us, rfl, ht⟩

theorem Starts.mono (h : Starts p ts) (hpq : ∀ k, p k = true → q k = true) : Starts q ts := by
  obtain ⟨t, us, rfl, ht⟩ := h
  exact ⟨t, us, rfl, hpq _ ht⟩

theorem Starts.token (h : Starts p ts) : p (before ts c).token.kind = true := by
  obtain ⟨t, us, rfl, ht⟩ := h
  exact ht

theorem Starts.length_pos (h : Starts p ts) : 0 < ts.length := by
  obtain ⟨t, us, rfl, -⟩ := h
  exact Nat.succ_pos _

/-- The tokens that do not end an expression. -/
def opens (k : TokenKind) : Bool := !k.ends

/-- The rules for what is nested less than `depth` deep in a text of `size` tokens. -/
def level (size depth : Nat) : Grammar :=
  ⟨size, assignment size depth, statement size depth⟩

/-- Tokens that a rule reads wherever one of the tokens `after` stands behind them. -/
structure Phrase (after : TokenKind → Bool) (p : Grammar → Parser α) (ts : List Token) (a : α) :
    Prop where
  balanced : Balanced ts
  starts : Starts opens ts
  reads : ∀ {size depth : Nat} {c : Cursor}, ts.length ≤ size → ts.length ≤ depth →
    after c.token.kind = true → p (level size depth) (before ts c) = .ok (a, c)

/-- Tokens that are read as an expression wherever an expression may end. -/
abbrev Assignment (ts : List Token) (e : Expr) : Prop :=
  Phrase ends Grammar.assignment ts e

def closing : List String := [")", "]", "\x7d"]

def splits (k : TokenKind) : Bool :=
  k.isMark "," || closing.any k.isMark

/-- Phrases with commas between them. -/
inductive Separated (after : TokenKind → Bool) (p : Grammar → Parser α) :
    List Token → List α → Prop where
  | nil : Separated after p [] []
  | one {ts : List Token} {a : α} : Phrase after p ts a → Separated after p ts [a]
  | cons {ts us : List Token} {t : Token} {a b : α} {rest : List α} : Phrase after p ts a →
    t.kind = .mark "," → Separated after p us (b :: rest) →
    Separated after p (ts ++ t :: us) (a :: b :: rest)

theorem splits_of_closing (hm : m ∈ closing) : splits (.mark m) = true := by
  simp only [closing, mem_cons, not_mem_nil, or_false] at hm
  rcases hm with rfl | rfl | rfl <;> decide

theorem ends_of_splits {k : TokenKind} (hk : splits k = true) : k.ends = true := by
  cases k with
  | mark m =>
    simp only [splits, closing, isMark_mark, any_cons, any_nil, Bool.or_false,
      Bool.or_eq_true, beq_iff_eq] at hk
    rcases hk with rfl | rfl | rfl | rfl <;> decide
  | _ => cases hk

theorem Phrase.item (h : Phrase ends p ts a) : Phrase splits p ts a :=
  ⟨h.balanced, h.starts, fun hsize hdepth hc => h.reads hsize hdepth (ends_of_splits hc)⟩

theorem not_isMark_of_opens {k : TokenKind} (hk : opens k = true)
    (hm : (mark m).ends = true) : k.isMark m = false := by
  cases k with
  | mark n =>
    refine beq_false_of_ne ?_
    rintro rfl
    simp [opens, hm] at hk
  | _ => rfl

namespace Separated

variable {after : TokenKind → Bool} {p : Grammar → Parser α} {as : List α}

theorem balanced (h : Separated after p ts as) : Balanced ts := by
  induction h with
  | nil => exact balanced_nil
  | one h => exact h.balanced
  | cons h ht _ ih => exact h.balanced.append (ih.cons ht (by decide))

theorem reads (h : Separated splits p ts as) (hm : m ∈ closing) {fuel : Nat} (size depth : Nat)
    (hsize : ts.length ≤ size) (hdepth : ts.length ≤ depth) (hfuel : ts.length < fuel)
    (hc : c.token.kind = .mark m) :
    commaList m (p (level size depth)) fuel (before ts c) = .ok (as, c) := by
  have hsplits := splits_of_closing hm
  have hends := ends_of_splits hsplits
  induction h generalizing fuel with
  | nil =>
    obtain ⟨fuel, rfl⟩ := Nat.exists_eq_add_of_lt hfuel
    simp [commaList, hc]
  | one h =>
    obtain ⟨fuel, rfl⟩ := Nat.exists_eq_add_of_lt hfuel
    have hnot := not_isMark_of_opens (h.starts.token (c := c)) hends
    have hcomma : c.token.kind.isMark "," = false := by
      rw [hc]
      simp only [closing, mem_cons, not_mem_nil, or_false] at hm
      rcases hm with rfl | rfl | rfl <;> decide
    simp [commaList, hnot, h.reads hsize hdepth (hc ▸ hsplits), hcomma]
  | cons h ht _ ih =>
    rename_i ts us t a b rest _
    simp only [length_append, length_cons] at hsize hdepth hfuel
    obtain ⟨fuel, rfl⟩ := Nat.exists_eq_add_of_lt hfuel
    have hnot := not_isMark_of_opens (h.starts.token (c := before (t :: us) c)) hends
    have hrest := @ih (ts.length + (us.length + 1) + fuel) (by omega) (by omega) (by omega)
    have hcomma : splits (before (t :: us) c).token.kind = true := by
      rw [token_before_cons, ht]
      decide
    have hitem : p (level size depth) (before ts (before (t :: us) c)) =
        .ok (a, before (t :: us) c) :=
      h.reads (by omega) (by omega) hcomma
    simp [commaList, hnot, hitem, ht, hrest]

end Separated

/-! ## Names, fields, elements and calls -/

theorem Assignment.expression (h : Assignment ts e) {size depth : Nat} (hsize : ts.length ≤ size)
    (hdepth : ts.length ≤ depth) (hm : (mark m).ends = true) (hcomma : m ≠ ",")
    (hc : c.token.kind = .mark m) : (level size depth).expression (before ts c) = .ok (e, c) := by
  have he : (level size depth).assignment (before ts c) = .ok (e, c) :=
    h.reads hsize hdepth (hc ▸ hm)
  simp [Grammar.expression, he, hc, hcomma]

/-- Tokens that are read as an expression with its fields, elements and calls, the
token behind them being read as one more or not. -/
structure Chain (ts : List Token) (e : Expr) : Prop where
  balanced : Balanced ts
  noArrow : NoArrow ts
  starts : Starts isOperand ts
  reads : ∀ {size depth fuel : Nat} {c : Cursor}, ts.length ≤ size → ts.length ≤ depth + 1 →
    ts.length ≤ fuel → ∃ base c' fuel', fuel ≤ fuel' + ts.length ∧
      (level size depth).primary (before ts c) = .ok (base, c') ∧
      (level size depth).accesses fuel base c' = (level size depth).accesses fuel' e c

namespace Chain

theorem of_token (hlevel : t.kind.isLevel = true) (hoperand : t.kind.isOperand = true)
    (hnoArrow : NoArrow [t])
    (h : ∀ {g : Grammar} {c : Cursor}, g.primary (before [t] c) = .ok (e, c)) : Chain [t] e where
  balanced := balanced_nil.cons rfl hlevel
  noArrow := hnoArrow
  starts := starts_cons rfl hoperand
  reads _ _ _ := ⟨e, _, _, Nat.le_add_right _ _, h, rfl⟩

theorem number (ht : t.kind = .number x) : Chain [t] (.number x) := by
  obtain ⟨kind, pos, newline⟩ := t
  cases ht
  exact of_token rfl rfl (fun _ _ => rfl) rfl

theorem str (ht : t.kind = .str x) : Chain [t] (.str x) := by
  obtain ⟨kind, pos, newline⟩ := t
  cases ht
  exact of_token rfl rfl (fun _ _ => rfl) rfl

theorem of_word (ht : t.kind = .word w) (h : ∀ {g : Grammar} {c : Cursor} (pos : Position)
      (newline : Bool), g.primary (before [⟨.word w, pos, newline⟩] c) = .ok (e, c)) : Chain [t]
        e := by
  obtain ⟨kind, pos, newline⟩ := t
  cases ht
  exact of_token rfl rfl (noArrow_word rfl) (h pos newline)

theorem bool (ht : t.kind = .word (Outline.bool b)) : Chain [t] (.bool b) := by
  cases b <;> exact of_word ht fun _ _ => rfl

theorem null (ht : t.kind = .word "null") : Chain [t] .null :=
  of_word ht fun _ _ => rfl

theorem undefined (ht : t.kind = .word "undefined") : Chain [t] .undefined :=
  of_word ht fun _ _ => rfl

theorem this (ht : t.kind = .word "this") : Chain [t] .this :=
  of_word ht fun _ _ => rfl

theorem ident (ht : t.kind = .word w) (hw : isReserved w = false) :
    Chain [t] (.ident ⟨w, t.pos⟩) := by
  have hne : ∀ v, isReserved v = true → w ≠ v := by
    rintro v hv rfl
    rw [hv] at hw
    cases hw
  refine of_token (by rw [ht]; rfl) (by rw [ht]; rfl) (noArrow_word ht) ?_
  simp [primary, ht, hw, hne "true" (by decide), hne "false" (by decide),
    hne "null" (by decide), hne "undefined" (by decide), hne "this" (by decide),
    hne "function" (by decide)]

theorem parens (h : Assignment ts e) (ht : t.kind = .mark "(") (hu : u.kind = .mark ")") :
    Chain (t :: (ts ++ [u])) e where
  balanced := h.balanced.parens ht hu
  noArrow := .parens h.balanced ht hu
  starts := starts_cons ht (by decide)
  reads {size depth fuel c} hsize hdepth _ := by
    simp only [length_cons, length_append, length_nil] at hsize hdepth
    refine ⟨e, c, fuel, Nat.le_add_right _ _, ?_, rfl⟩
    have he : (level size depth).expression (before ts (before [u] c)) = .ok (e, before [u] c) :=
      h.expression (by omega) (by omega) (m := ")") (by decide) (by decide) hu
    simp [primary, ht, he, hu]

theorem of_list {p : Grammar → Parser α} {as : List α} (h : Separated splits p ts as) {l r : String}
    (hl : (mark l).isLevel = true ∧ (mark l).isOperand = true)
    (hr : (mark r).isLevel = true) (ht : t.kind = .mark l) (hu : u.kind = .mark r)
    (hprimary : ∀ {size depth : Nat} {c : Cursor}, ts.length + 2 ≤ size → ts.length ≤ depth →
      (level size depth).primary (before (t :: (ts ++ [u])) c) = .ok (e, c)) :
    Chain (t :: (ts ++ [u])) e where
  balanced := h.balanced.enclosed ht hu ⟨hl.1, hr⟩
  noArrow c _ := by
    refine arrowAhead_mark ht ?_
    rintro rfl
    exact nomatch hl.1
  starts := starts_cons ht hl.2
  reads {size depth fuel c} hsize hdepth _ := by
    simp only [length_cons, length_append, length_nil] at hsize hdepth
    exact ⟨e, c, fuel, Nat.le_add_right _ _, hprimary (by omega) (by omega), rfl⟩

theorem array {items : List Expr} (h : Separated splits arrayItem ts items)
    (ht : t.kind = .mark "[") (hu : u.kind = .mark "]") :
    Chain (t :: (ts ++ [u])) (.array items) := by
  refine of_list h (by decide) (by decide) ht hu fun {size depth c} hsize hdepth => ?_
  have hitems : commaList "]" (level size depth).arrayItem (level size depth).size
      (before ts (before [u] c)) = .ok (items, before [u] c) :=
    h.reads (by decide) size depth (by omega) hdepth (show ts.length < size by omega) hu
  simp [primary, ht, hitems, hu]

theorem object {props : List (String × Expr)} (h : Separated splits objectProp ts props)
    (ht : t.kind = .mark "\x7b") (hu : u.kind = .mark "\x7d") :
    Chain (t :: (ts ++ [u])) (.object props) := by
  refine of_list h (by decide) (by decide) ht hu fun {size depth c} hsize hdepth => ?_
  have hprops : commaList "\x7d" (level size depth).objectProp (level size depth).size
      (before ts (before [u] c)) = .ok (props, before [u] c) :=
    h.reads (by decide) size depth (by omega) hdepth (show ts.length < size by omega) hu
  simp [primary, ht, hprops, hu]

/-- One more access, which reads the tokens behind what is read already. -/
theorem access (h : Chain ts e) (hbalanced : Balanced us)
    (hus : Starts (fun k => !k.isMark "=>") us)
    (hreads : ∀ {size depth fuel : Nat} {c : Cursor}, us.length < size → us.length ≤ depth →
      (level size depth).accesses (fuel + 1) e (before us c) =
        (level size depth).accesses fuel e' c) : Chain (ts ++ us) e' where
  balanced := h.balanced.append hbalanced
  noArrow := by
    obtain ⟨u, us, rfl, hu⟩ := hus
    exact h.noArrow.append (by simpa using hu)
  starts := h.starts.append
  reads {size depth fuel c} hsize hdepth hfuel := by
    have hpos := h.starts.length_pos
    have hpos' := hus.length_pos
    rw [length_append] at hsize hdepth hfuel
    obtain ⟨base, c', fuel', hfuel', hprimary, haccesses⟩ :=
      @h.reads size depth fuel (before us c) (by omega) (by omega) (by omega)
    obtain ⟨rest, rfl⟩ : ∃ rest, fuel' = rest + 1 := ⟨fuel' - 1, by omega⟩
    refine ⟨base, c', rest, ?_, before_append ts us c ▸ hprimary, ?_⟩
    · rw [length_append]
      omega
    · rw [haccesses, hreads (by omega) (by omega)]

theorem member (h : Chain ts e) (ht : t.kind = .mark ".") (hu : u.kind = .word w) :
    Chain (ts ++ [t, u]) (.member e w) := by
  refine h.access ((balanced_nil.cons hu rfl).cons ht (by decide))
    (starts_cons ht (by decide)) fun {size depth fuel c} _ _ => ?_
  simp [accesses, ht, hu]

theorem index {i : Expr} (h : Chain ts e) (ht : t.kind = .mark "[") (hi : Assignment us i)
    (hu : u.kind = .mark "]") : Chain (ts ++ t :: (us ++ [u])) (.index e i) := by
  refine h.access (hi.balanced.enclosed ht hu (by decide)) (starts_cons ht (by decide))
    fun {size depth fuel c} hsize hdepth => ?_
  simp only [length_cons, length_append, length_nil] at hsize hdepth
  have hindex : (level size depth).expression (before us (before [u] c)) = .ok (i, before [u] c) :=
    hi.expression (by omega) (by omega) (by decide) (by decide) hu
  simp [accesses, ht, hindex, hu]

theorem call {args : List Expr} (h : Chain ts e) (ht : t.kind = .mark "(")
    (hargs : Separated splits Grammar.assignment us args) (hu : u.kind = .mark ")") :
    Chain (ts ++ t :: (us ++ [u])) (.call e args) := by
  refine h.access (hargs.balanced.parens ht hu) (starts_cons ht (by decide))
    fun {size depth fuel c} hsize hdepth => ?_
  simp only [length_cons, length_append, length_nil] at hsize hdepth
  have hlist : commaList ")" (level size depth).assignment (level size depth).size
      (before us (before [u] c)) = .ok (args, before [u] c) :=
    hargs.reads (by decide) size depth (by omega) (by omega) (show us.length < size by omega) hu
  simp [accesses, ht, hlist, hu]

end Chain

/-! ## Operators -/

theorem accesses_of_pull {g : Grammar} (fuel : Nat) (h : c.token.pull < 17) :
    g.accesses fuel e c = .ok (e, c) := by
  cases fuel with
  | zero => rfl
  | succ fuel =>
    obtain ⟨hdot, hbracket, hparen⟩ := Token.not_access_of_pull h
    simp [accesses, hdot, hbracket, hparen]

/-- Tokens that are read as an operand with the operators in front of it. -/
structure Unary (ts : List Token) (e : Expr) : Prop where
  balanced : Balanced ts
  noArrow : NoArrow ts
  starts : Starts opens ts
  reads : ∀ {size depth fuel : Nat} {c : Cursor}, ts.length ≤ size → ts.length ≤ depth + 1 →
    ts.length ≤ fuel → c.token.pull < 15 →
    (level size depth).unary fuel (before ts c) = .ok (e, c)

namespace Unary

theorem opens_of_isOperand (k : TokenKind) (h : k.isOperand = true) : opens k = true := by
  simp only [isOperand, Bool.and_eq_true] at h
  exact h.1.1

/-- What is read as an update or as no update at all: the operand and what may
follow it on the line. -/
theorem of_postfixed (hbalanced : Balanced ts) (hnoArrow : NoArrow ts)
    (hstarts : Starts isOperand ts)
    (h : ∀ {size depth : Nat} {c : Cursor}, ts.length ≤ size → ts.length ≤ depth + 1 →
      c.token.pull < 15 → (level size depth).postfixed (before ts c) = .ok (e, c)) :
    Unary ts e where
  balanced := hbalanced
  noArrow := hnoArrow
  starts := hstarts.mono opens_of_isOperand
  reads {size depth fuel c} hsize hdepth hfuel hc := by
    have hpos := hstarts.length_pos
    obtain ⟨rest, rfl⟩ : ∃ rest, fuel = rest + 1 := ⟨fuel - 1, by omega⟩
    have hoperand := hstarts.token (c := c)
    simp only [isOperand, Bool.and_eq_true, Option.isNone_iff_eq_none] at hoperand
    simp [unary, hoperand.1.2, hoperand.2, h hsize hdepth hc]

theorem of_chain (h : Chain ts e) : Unary ts e := by
  refine of_postfixed h.balanced h.noArrow h.starts fun {size depth c} hsize hdepth hc => ?_
  obtain ⟨base, c', fuel', -, hprimary, haccesses⟩ := @h.reads size depth size c hsize hdepth hsize
  rw [accesses_of_pull fuel' (by omega)] at haccesses
  have haccesses : (level size depth).accesses (level size depth).size base c' = .ok (e, c) :=
    haccesses
  rcases Token.not_update_of_pull hc with hline | hupdate
  · simp [postfixed, hprimary, haccesses, hline]
  · simp [postfixed, hprimary, haccesses, hupdate]

theorem updateOp?_symbol (op : UpdateOp) : updateOp? (.mark op.symbol) = some op := by
  cases op <;> decide

theorem unaryOp?_symbol (op : UnaryOp) : unaryOp? (.mark op.symbol) = some op := by
  cases op <;> decide

theorem after {op : UpdateOp} (h : Chain ts e) (he : e.isTarget = true)
    (ht : t.kind = .mark op.symbol) (hline : t.newlineBefore = false) :
    Unary (ts ++ [t]) (.update op false e) := by
  have hlevel : t.kind.isLevel = true := by
    rw [ht]
    cases op <;> decide
  have harrow : t.kind.isMark "=>" = false := by
    rw [ht]
    cases op <;> decide
  have hpull : t.pull < 17 := by
    rw [Token.pull, ht, hline]
    cases op <;> decide
  refine of_postfixed (h.balanced.append (balanced_nil.cons rfl hlevel)) (h.noArrow.append harrow)
    h.starts.append fun {size depth c} hsize hdepth hc => ?_
  rw [length_append, length_singleton] at hsize hdepth
  obtain ⟨base, c', fuel', -, hprimary, haccesses⟩ :=
    @h.reads size depth size (before [t] c) (by omega) (by omega) (by omega)
  rw [accesses_of_pull fuel' hpull] at haccesses
  have haccesses : (level size depth).accesses (level size depth).size base c' =
      .ok (e, before [t] c) :=
    haccesses
  simp [postfixed, hprimary, haccesses, hline, ht, updateOp?_symbol, he]

theorem sign {op : UnaryOp} (ht : t.kind = .mark op.symbol) (h : Unary ts e) :
    Unary (t :: ts) (.unary op e) where
  balanced := h.balanced.cons ht (by cases op <;> decide)
  noArrow c _ := arrowAhead_mark ht (by cases op <;> decide)
  starts := starts_cons ht (by cases op <;> decide)
  reads {size depth fuel c} hsize hdepth hfuel hc := by
    rw [length_cons] at hsize hdepth hfuel
    obtain ⟨fuel, rfl⟩ : ∃ rest, fuel = rest + 1 := ⟨fuel - 1, by omega⟩
    have harg : (level size depth).unary fuel (before ts c) = .ok (e, c) :=
      h.reads (by omega) (by omega) (by omega) hc
    simp [unary, ht, unaryOp?_symbol, harg]

theorem update {op : UpdateOp} (ht : t.kind = .mark op.symbol) (h : Unary ts e)
    (he : e.isTarget = true) : Unary (t :: ts) (.update op true e) where
  balanced := h.balanced.cons ht (by cases op <;> decide)
  noArrow c _ := arrowAhead_mark ht (by cases op <;> decide)
  starts := starts_cons ht (by cases op <;> decide)
  reads {size depth fuel c} hsize hdepth hfuel hc := by
    rw [length_cons] at hsize hdepth hfuel
    obtain ⟨fuel, rfl⟩ : ∃ rest, fuel = rest + 1 := ⟨fuel - 1, by omega⟩
    have htarget : (level size depth).unary fuel (before ts c) = .ok (e, c) :=
      h.reads (by omega) (by omega) (by omega) hc
    have hunary : unaryOp? (.mark op.symbol) = none := by cases op <;> decide
    simp [unary, ht, hunary, updateOp?_symbol, htarget, he]

end Unary

/-- A token is not read into operands that hold together with a strength: it joins
less strongly, or as strongly and to the left. -/
def Stops (k : Nat) (t : Token) : Prop :=
  t.pull < k ∨ t.pull = k ∧ k < BinaryOp.pow.precedence

/-- Tokens that are read as operands and operators, of which the weakest has
strength `k`, up to the choice whether another operator follows. -/
structure Joined (k : Nat) (ts : List Token) (e : Expr) : Prop where
  balanced : Balanced ts
  noArrow : NoArrow ts
  starts : Starts opens ts
  reads : ∀ {size depth fuel least : Nat} {c : Cursor}, ts.length ≤ size → ts.length ≤ depth + 1 →
    ts.length ≤ fuel → least ≤ k → Stops k c.token → ∃ fuel', fuel ≤ fuel' + ts.length ∧
      (level size depth).joined fuel least (before ts c) =
        (level size depth).joinedFrom fuel' least e c

namespace Joined

theorem of_unary (h : Unary ts e) : Joined 14 ts e := { h with
  reads {size depth fuel least c} hsize hdepth hfuel _ hc := by
    have hpos := h.starts.length_pos
    obtain ⟨rest, rfl⟩ : ∃ rest, fuel = rest + 1 := ⟨fuel - 1, by omega⟩
    have hpull : c.token.pull < 15 := by
      rcases hc with hc | hc <;> omega
    have hunary : (level size depth).unary (level size depth).size (before ts c) = .ok (e, c) :=
      h.reads hsize hdepth hsize hpull
    refine ⟨rest, by omega, ?_⟩
    simp [joined, hunary] }

theorem joinedFrom_stop {g : Grammar} (fuel : Nat) (h : ∀ j, Joint.ofKind? c.token.kind = some j →
    j.precedence < least) :
    g.joinedFrom fuel least e c = .ok (e, c) := by
  cases fuel with
  | zero => simp [joinedFrom]
  | succ fuel =>
    cases hj : Joint.ofKind? c.token.kind with
    | none => simp [joinedFrom, hj]
    | some j => simp [joinedFrom, hj, h j hj]

theorem pull_lt_rightPrecedence (h : Stops j.precedence t) : t.pull < j.rightPrecedence := by
  rcases j with op | op
  · cases op <;> simp [Stops, Joint.precedence, Joint.rightPrecedence, BinaryOp.precedence] at h ⊢
      <;> omega
  · cases op <;> simp [Stops, Joint.precedence, Joint.rightPrecedence, BinaryOp.precedence] at h ⊢
      <;> omega

/-- Two operands with an operator between them. The left one does not lose its end
to the operator, and the right one is strong enough to belong to it. -/
theorem join (hl : Joined kl ts l) (ht : t.kind = .mark j.symbol)
    (hr : Joined kr us r) (hleft : Stops kl t) (hright : j.rightPrecedence ≤ kr) :
    Joined j.precedence (ts ++ t :: us) (j.join l r) where
  balanced := hl.balanced.append (hr.balanced.cons ht j.isLevel_symbol)
  noArrow := hl.noArrow.append (by rw [ht]; exact j.not_arrow_symbol)
  starts := hl.starts.append
  reads {size depth fuel least c} hsize hdepth hfuel hleast hc := by
    have hpull : j.precedence ≤ kl := by
      have := Token.precedence_le_pull (by rw [ht]; exact j.ofKind?_symbol)
      rcases hleft with h | h <;> omega
    have hnext := pull_lt_rightPrecedence hc
    rw [length_append, length_cons] at hsize hdepth hfuel
    obtain ⟨fuel', hfuel', hjoined⟩ := @hl.reads size depth fuel least (before (t :: us) c)
      (by omega) (by omega) (by omega) (by omega) hleft
    obtain ⟨rest, rfl⟩ : ∃ rest, fuel' = rest + 1 := ⟨fuel' - 1, by omega⟩
    obtain ⟨fuel'', -, hjoined'⟩ := @hr.reads size depth rest j.rightPrecedence c
      (by omega) (by omega) (by omega) hright (.inl (by omega))
    rw [joinedFrom_stop fuel'' fun i hi => (Token.precedence_le_pull hi).trans_lt hnext] at hjoined'
    refine ⟨rest, ?_, ?_⟩
    · rw [length_append, length_cons]
      omega
    · rw [before_append, hjoined]
      simp [joinedFrom, ht, j.ofKind?_symbol, Nat.not_lt.2 hleast, hjoined']

theorem whole (h : Joined k ts e) {size depth : Nat} (hsize : ts.length ≤ size)
    (hdepth : ts.length ≤ depth + 1) (hstops : Stops k c.token)
    (hc : Joint.ofKind? c.token.kind = none) :
    (level size depth).joined (2 * (level size depth).size) 0 (before ts c) = .ok (e, c) := by
  obtain ⟨fuel, -, hjoined⟩ := @h.reads size depth (2 * size) 0 c hsize hdepth (by omega)
    (Nat.zero_le k) hstops
  refine hjoined.trans (joinedFrom_stop fuel fun j hj => ?_)
  rw [hc] at hj
  cases hj

end Joined

/-! ## Choices and assignments -/

namespace Assignment

theorem of_rule (hbalanced : Balanced ts) (hstarts : Starts opens ts)
    (h : ∀ {size depth : Nat} {c : Cursor}, ts.length ≤ size → ts.length ≤ depth + 1 →
      c.token.kind.ends = true → (level size depth).assignmentRule (before ts c) = .ok (e, c)) :
    Assignment ts e where
  balanced := hbalanced
  starts := hstarts
  reads {size depth c} hsize hdepth hc := by
    have hpos := hstarts.length_pos
    obtain ⟨depth, rfl⟩ : ∃ d, depth = d + 1 := ⟨depth - 1, by omega⟩
    exact h hsize hdepth hc

theorem not_arrow_of_ends {k : TokenKind} (h : k.ends = true) : k.isMark "=>" = false := by
  cases k with
  | mark m =>
    refine beq_false_of_ne ?_
    rintro rfl
    cases h
  | _ => rfl

theorem of_joined (h : Joined k ts e) (hk : 0 < k) : Assignment ts e := by
  refine of_rule h.balanced h.starts fun {size depth c} hsize hdepth hc => ?_
  have hpull := Token.pull_of_ends hc
  have harrow := h.noArrow c (not_arrow_of_ends hc)
  have hjoined := h.whole hsize hdepth (.inl (by omega)) (Token.not_joint_of_pull hpull)
  obtain ⟨hchoice, hassign⟩ := Token.not_choice_of_pull hpull
  simp [assignmentRule, harrow, Grammar.conditional, hjoined, hchoice, hassign]

theorem conditional {u : Token} {us vs : List Token} {consequent alternate : Expr}
    (h : Joined k ts e) (hk : 2 < k) (ht : t.kind = .mark "?")
    (hconsequent : Assignment us consequent) (hu : u.kind = .mark ":")
    (halternate : Assignment vs alternate) :
    Assignment (ts ++ t :: (us ++ u :: vs)) (.conditional e consequent alternate) := by
  refine of_rule (h.balanced.append ((hconsequent.balanced.append
    (halternate.balanced.cons hu (by decide))).cons ht (by decide)))
    h.starts.append fun {size depth c} hsize hdepth hc => ?_
  simp only [length_append, length_cons] at hsize hdepth
  have hpull : t.pull = 2 := by
    rw [Token.pull, ht]
    cases t.newlineBefore <;> decide
  have harrow := h.noArrow (before (t :: (us ++ u :: vs)) c) (by rw [token_before_cons, ht]; decide)
  have htest : (level size depth).joined (2 * (level size depth).size) 0
      (before ts (before (t :: (us ++ u :: vs)) c)) = .ok (e, before (t :: (us ++ u :: vs)) c) :=
    h.whole (by omega) (by omega) (.inl (by rw [token_before_cons]; omega))
      (by rw [token_before_cons, ht]; rfl)
  have hthen : (level size depth).assignment (before us (before (u :: vs) c)) =
      .ok (consequent, before (u :: vs) c) :=
    hconsequent.reads (by omega) (by omega) (by rw [token_before_cons, hu]; decide)
  have helse : (level size depth).assignment (before vs c) = .ok (alternate, c) :=
    halternate.reads (by omega) (by omega) hc
  obtain ⟨-, hassign⟩ := Token.not_choice_of_pull (Token.pull_of_ends hc)
  simp [assignmentRule, harrow, Grammar.conditional, htest, ht, hthen, hu, helse, hassign]

theorem assign {op : AssignOp} {value : Expr} (h : Joined k ts e) (hk : 1 < k)
    (he : e.isTarget = true) (ht : t.kind = .mark op.symbol)
    (hvalue : Assignment us value) :
    Assignment (ts ++ t :: us) (.assign op e value) := by
  refine of_rule (h.balanced.append (hvalue.balanced.cons ht (by cases op <;> decide)))
    h.starts.append fun {size depth c} hsize hdepth hc => ?_
  simp only [length_append, length_cons] at hsize hdepth
  have hpull : t.pull = 1 := by
    rw [Token.pull, ht]
    cases t.newlineBefore <;> cases op <;> decide
  have harrow := h.noArrow (before (t :: us) c) (by rw [token_before_cons, ht]; cases op <;> decide)
  have htarget : (level size depth).joined (2 * (level size depth).size) 0
      (before ts (before (t :: us) c)) = .ok (e, before (t :: us) c) :=
    h.whole (by omega) (by omega) (.inl (by rw [token_before_cons]; omega))
      (by rw [token_before_cons, ht]; cases op <;> rfl)
  have hchoice : (mark op.symbol).isMark "?" = false := by cases op <;> decide
  have hassign : assignOp? (.mark op.symbol) = some op := by cases op <;> decide
  have hrest : (level size depth).assignment (before us c) = .ok (value, c) :=
    hvalue.reads (by omega) (by omega) hc
  simp [assignmentRule, harrow, Grammar.conditional, htarget, ht, hchoice, hassign, he, hrest]

end Assignment

/-! ## Items -/

theorem Assignment.arrayItem (h : Assignment ts e) : Phrase splits arrayItem ts e := { h with
  reads {size depth c} hsize hdepth hc := by
    have hcomma := not_isMark_of_opens (h.starts.token (c := c)) (m := ",") (by decide)
    have he : (level size depth).assignment (before ts c) = .ok (e, c) :=
      h.item.reads hsize hdepth hc
    simp [Grammar.arrayItem, hcomma, he] }

theorem Assignment.property (h : Assignment ts e)
    (ht : t.kind = .word x ∨ t.kind = .str x) (hu : u.kind = .mark ":") :
    Phrase splits objectProp (t :: u :: ts) (x, e) where
  balanced := (h.balanced.cons hu (by decide)).cons rfl
    (by rcases ht with ht | ht <;> rw [ht] <;> rfl)
  starts := starts_cons rfl (by rcases ht with ht | ht <;> rw [ht] <;> rfl)
  reads {size depth c} hsize hdepth hc := by
    simp only [length_cons] at hsize hdepth
    have he : (level size depth).assignment (before ts c) = .ok (e, c) :=
      h.item.reads (by omega) (by omega) hc
    rcases ht with ht | ht <;> simp [objectProp, ht, hu, he]

theorem shorthand (ht : t.kind = .word w) (hw : isReserved w = false) :
    Phrase splits objectProp [t] (w, .ident ⟨w, t.pos⟩) where
  balanced := balanced_nil.cons ht rfl
  starts := starts_cons ht rfl
  reads {size depth c} _ _ hc := by
    have hcolon : c.token.kind.isMark ":" = false := by
      cases hk : c.token.kind with
      | mark m =>
        refine beq_false_of_ne ?_
        rintro rfl
        rw [hk] at hc
        cases hc
      | _ => rfl
    simp [objectProp, ht, hw, hcolon]

/-! ## Strength -/

/-- Tokens that are read as an expression of some strength: as an assignment, and as
what binds as strongly. -/
structure Graded (k : Nat) (ts : List Token) (e : Expr) : Prop where
  assignment : Assignment ts e
  joined : 2 < k → Joined (min k 14) ts e
  unary : 14 ≤ k → Unary ts e
  chain : 17 ≤ k → Chain ts e

namespace Graded

theorem of_assignment (h : Assignment ts e) (hk : k ≤ 2) : Graded k ts e where
  assignment := h
  joined h := absurd h (by omega)
  unary h := absurd h (by omega)
  chain h := absurd h (by omega)

theorem of_joined (h : Joined k ts e) (hpos : 0 < k) (hk : k < 14) : Graded k ts e where
  assignment := .of_joined h hpos
  joined _ := by rwa [Nat.min_eq_left (by omega)]
  unary h := absurd h (by omega)
  chain h := absurd h (by omega)

theorem of_unary (h : Unary ts e) (hk : 14 ≤ k ∧ k < 17) : Graded k ts e where
  assignment := .of_joined (.of_unary h) (by decide)
  joined _ := by
    rw [Nat.min_eq_right hk.1]
    exact .of_unary h
  unary _ := h
  chain h := absurd h (by omega)

theorem of_chain (h : Chain ts e) (hk : 14 ≤ k) : Graded k ts e where
  assignment := .of_joined (.of_unary (.of_chain h)) (by decide)
  joined _ := by
    rw [Nat.min_eq_right hk]
    exact .of_unary (.of_chain h)
  unary _ := .of_chain h
  chain _ := h

end Graded

end Parser

end BarScript

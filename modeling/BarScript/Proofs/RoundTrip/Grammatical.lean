import BarScript.Proofs.RoundTrip.Written

/-!
# What the grammar lets into a tree

Whatever text a script has, its tree has the form that the rules of the grammar
give it: fields are words, only names, fields and elements are assigned to, a
declaration declares something, and a target that takes a value apart has one.
The lexer supplies the words, and each rule of the parser keeps the form. What is known
of the positions of the tokens holds of the positions in the tree as well, and of the
position of the error if there is no tree.

Names are the exception. A key in quotes that stands alone, in a target or in an
object literal, is read as a name, and then the name need not be a word.
-/

namespace BarScript

open Printer List

/-! ## Words -/

/-- A word among the tokens is a word as the lexer knows it. -/
def TokenKind.Worded : TokenKind → Prop
  | .word w => isWordText w = true
  | _ => True

theorem isWordText_takeWhile (hc : beginsWord c = true) (cs : List Char) :
    isWordText (String.ofList ((c :: cs).takeWhile continuesWord)) = true := by
  rw [takeWhile_cons_of_pos (continuesWord_of_beginsWord hc)]
  simp only [isWordText, String.toList_ofList, hc, Bool.true_and, all_eq_true]
  exact fun _ hx => mem_takeWhile_imp hx

theorem scanToken_worded {r : Reader} (hr : ∃ cs, r.rest = c :: cs)
    (h : scanToken c r = .ok (kind, r')) : kind.Worded := by
  obtain ⟨cs, hcs⟩ := hr
  unfold scanToken at h
  split at h
  · unfold scanNumber scanHex at h
    dsimp only at h
    split at h <;> split at h
    · cases h
    · cases h
      trivial
    · cases h
    · cases h
      trivial
  · split at h
    · unfold scanString at h
      obtain ⟨⟨s, r''⟩, -, h⟩ := Except.of_bind_eq_ok h
      cases h
      trivial
    · split at h
      · rename_i hbegins
        cases h
        show isWordText (String.ofList (r.rest.takeWhile continuesWord)) = true
        rw [hcs]
        exact isWordText_takeWhile hbegins cs
      · unfold scanMark at h
        split at h
        · cases h
          trivial
        · cases h

theorem tokensFrom_worded (h : tokensFrom fuel r = .ok ts) : ∀ t ∈ ts, t.kind.Worded := by
  induction fuel generalizing r ts with
  | zero => cases h
  | succ fuel ih =>
    unfold tokensFrom at h
    obtain ⟨⟨newline, r₁⟩, -, h⟩ := Except.of_bind_eq_ok h
    dsimp only at h
    split at h
    · cases h
      exact forall_mem_singleton.2 trivial
    · rename_i c cs hcs
      obtain ⟨⟨kind, r₂⟩, hscan, h⟩ := Except.of_bind_eq_ok h
      obtain ⟨rest, hrest, h⟩ := Except.of_bind_eq_ok h
      cases h
      exact forall_mem_cons.2 ⟨scanToken_worded ⟨cs, hcs⟩ hscan, ih hrest⟩

/-- A cursor whose words are words, at positions of which something is known. -/
def Cursor.Worded (P : Position → Prop) (c : Cursor) : Prop :=
  ∀ t ∈ c.token :: c.rest, t.kind.Worded ∧ P t.pos

/-- A parse error at a position of which something is known. -/
def CompileError.ParseAt (P : Position → Prop) : CompileError → Prop
  | .parse _ pos => P pos
  | _ => False

/-! ## The shape of parsed trees -/

/-- An arrow function has no name, and a function with its keyword has
statements. -/
def Func.Styled : Func → Prop
  | ⟨name, _, _, .arrow, _⟩ => name = none
  | ⟨name, _, body, .classic, _⟩ => body.isBlock = true ∧ ∀ id ∈ name, IsName id.name

/-- The form that the rules give to a node of an expression. -/
def Expr.Grammatical (P : Position → Prop) : Expr → Prop
  | .ident id => isReserved id.name = false ∧ P id.pos
  | .member _ property => isWordText property = true
  | .update _ _ target => target.isTarget = true
  | .assign _ target _ => target.isTarget = true
  | .func f => f.Styled
  | _ => True

def grammatical (P : Position → Prop) : Shape where
  expr := Expr.Grammatical P
  name x := isReserved x = false
  decls ds := ds ≠ [] ∧ ∀ d ∈ ds, (d.init = none → ∃ id, d.target = .ident id) ∧ P d.pos ∧
    ∀ id ∈ d.target.boundNames, P id.pos
  named f := f.Styled ∧ f.style = .classic ∧ f.name.isSome = true

/-- A function as the rules make it. -/
structure Func.Made (P : Position → Prop) (f : Func) : Prop where
  styled : f.Styled
  all : f.All (grammatical P)
  params : ∀ id ∈ f.params, IsName id.name
  pos : P f.pos

namespace Parser

variable {α β : Type} {P : Position → Prop} {Q : α → Prop} {x y : Parser α}

/-- What a rule gives from tokens whose words are words. -/
abbrev Makes (P : Position → Prop) (x : Parser α) (Q : α → Prop) : Prop :=
  Gives (Cursor.Worded P) (CompileError.ParseAt P) x Q

/-! ## Tokens -/

theorem makes_peek : Makes P peek fun t => t.kind.Worded ∧ P t.pos :=
  fun _ hc => ⟨hc _ mem_cons_self, hc⟩

theorem makes_peekNext : Makes P peekNext fun _ => True :=
  fun _ hc => ⟨trivial, hc⟩

theorem makes_advance : Makes P advance fun t => t.kind.Worded ∧ P t.pos := by
  rintro ⟨t, rest⟩ hc
  cases rest with
  | nil => exact ⟨hc _ mem_cons_self, hc⟩
  | cons u rest => exact ⟨hc _ mem_cons_self, fun v hv => hc v (mem_cons_of_mem _ hv)⟩

theorem makes_fail (h : P pos) : Makes P (fail issue pos) Q :=
  gives_throw h

theorem makes_unexpected : Makes P (unexpected wanted) Q :=
  makes_peek.bind fun _ ht => makes_fail ht.2

theorem makes_ite {b : Bool} (hx : Makes P x Q) (hy : Makes P y Q) :
    Makes P (if b then x else y) Q := by
  cases b
  · exact hy
  · exact hx

theorem makes_either {b : Bool} {f : α → Parser β} {R : β → Prop} (hx : Makes P x Q)
    (hy : Makes P y Q)
    (hf : ∀ a, Q a → Makes P (f a) R) : Makes P (if b then x >>= f else y >>= f) R :=
  makes_ite (hx.bind hf) (hy.bind hf)

theorem makes_atMark : Makes P (atMark m) fun _ => True :=
  makes_peek.bind fun _ _ => gives_pure trivial

theorem makes_atWord : Makes P (atWord w) fun _ => True :=
  makes_peek.bind fun _ _ => gives_pure trivial

theorem makes_eatMark : Makes P (eatMark m) fun _ => True :=
  makes_atMark.bind fun _ _ => makes_ite (makes_advance.bind fun _ _ => gives_pure trivial)
    (gives_pure trivial)

theorem makes_expectMark : Makes P (expectMark m) fun _ => True :=
  makes_atMark.bind fun _ _ => makes_ite (makes_advance.bind fun _ _ => gives_pure trivial)
    makes_unexpected

theorem makes_expectWord : Makes P (expectWord w) fun t => t.kind.Worded ∧ P t.pos :=
  makes_atWord.bind fun _ _ => makes_ite makes_advance makes_unexpected

theorem makes_semicolon : Makes P semicolon fun _ => True :=
  makes_eatMark.bind fun _ _ => makes_ite (gives_pure trivial)
    (makes_peek.bind fun _ _ => makes_ite (gives_pure trivial) makes_unexpected)

theorem makes_arrowAhead : Makes P arrowAhead fun _ => True := by
  refine gives_get.bind fun c _ => ?_
  split
  · exact makes_peekNext.bind fun _ _ => gives_pure trivial
  · exact gives_pure trivial
  · exact gives_pure trivial

/-- A name that is given is a word that is not reserved. -/
theorem makes_bindingIdent : Makes P bindingIdent fun id => IsName id.name ∧ P id.pos := by
  refine makes_peek.bind fun t ht => ?_
  obtain ⟨kind, pos, newline⟩ := t
  cases kind with
  | word w =>
    dsimp only
    cases hw : isReserved w with
    | true => exact makes_unexpected
    | false => exact makes_advance.bind fun _ _ => gives_pure ⟨⟨ht.1, hw⟩, ht.2⟩
  | _ => exact makes_unexpected

theorem makes_commaList {close : String} (hx : Makes P x Q) (fuel : Nat) :
    Makes P (commaList close x fuel) fun l => ∀ a ∈ l, Q a := by
  induction fuel with
  | zero => exact gives_pure fun _ h => by cases h
  | succ fuel ih =>
    refine makes_atMark.bind fun _ _ => makes_ite (gives_pure fun _ h => by cases h) ?_
    refine hx.bind fun a ha => makes_eatMark.bind fun _ _ => makes_ite ?_ ?_
    · exact ih.bind fun l hl => gives_pure (forall_mem_cons.2 ⟨ha, hl⟩)
    · exact gives_pure (forall_mem_singleton.2 ha)

/-! ## Targets -/

theorem makes_patternProp :
    Makes P patternProp fun p => isReserved p.2.name = false ∧ P p.2.pos := by
  refine makes_advance.bind fun t ht => ?_
  have hrest : ∀ key, Makes P (do
      if ← eatMark ":" then return (key, ← bindingIdent)
      else if isReserved key then fail (.reservedBinding key) t.pos
      else return (key, ⟨key, t.pos⟩)) fun p : String × Ident =>
        isReserved p.2.name = false ∧ P p.2.pos := by
    intro key
    refine makes_eatMark.bind fun _ _ => makes_ite ?_ ?_
    · exact makes_bindingIdent.bind fun id hid => gives_pure ⟨hid.1.2, hid.2⟩
    · cases hkey : isReserved key with
      | true => exact makes_fail ht.2
      | false => exact gives_pure ⟨hkey, ht.2⟩
  obtain ⟨kind, pos, newline⟩ := t
  cases kind with
  | word w => exact hrest w
  | str s => exact hrest s
  | _ => exact makes_fail ht.2

theorem makes_patternItems (fuel : Nat) :
    Makes P (patternItems fuel) fun items =>
      ∀ id, some id ∈ items → isReserved id.name = false ∧ P id.pos := by
  induction fuel with
  | zero => exact gives_pure fun _ h => by cases h
  | succ fuel ih =>
    refine makes_atMark.bind fun _ _ => makes_ite (gives_pure fun _ h => by cases h) ?_
    refine makes_eatMark.bind fun _ _ => makes_ite ?_ ?_
    · refine ih.bind fun items hitems => gives_pure fun id hid => ?_
      exact hitems id (by simpa using hid)
    · refine makes_bindingIdent.bind fun id hid => makes_eatMark.bind fun _ _ => makes_ite ?_ ?_
      · refine ih.bind fun items hitems => gives_pure fun id' hid' => ?_
        rcases mem_cons.1 hid' with h | h
        · cases h
          exact ⟨hid.1.2, hid.2⟩
        · exact hitems id' h
      · refine gives_pure fun id' hid' => ?_
        cases mem_singleton.1 hid'
        exact ⟨hid.1.2, hid.2⟩

theorem makes_pattern (size : Nat) : Makes P (pattern size) fun p =>
    ∀ id ∈ p.boundNames, isReserved id.name = false ∧ P id.pos := by
  refine makes_eatMark.bind fun _ _ => makes_ite ?_ ?_
  · refine (makes_commaList makes_patternProp size).bind fun props hprops => ?_
    refine makes_expectMark.bind fun _ _ => gives_pure fun id hid => ?_
    obtain ⟨p, hp, rfl⟩ := mem_map.1 hid
    exact hprops p hp
  · refine makes_eatMark.bind fun _ _ => makes_ite ?_ ?_
    · refine (makes_patternItems size).bind fun items hitems => ?_
      refine makes_expectMark.bind fun _ _ => gives_pure fun id hid => ?_
      obtain ⟨item, hitem, rfl⟩ := mem_filterMap.1 hid
      exact hitems id hitem
    · exact makes_bindingIdent.bind fun id hid =>
        gives_pure (forall_mem_singleton.2 ⟨hid.1.2, hid.2⟩)

theorem makes_param : Makes P param fun id => IsName id.name := by
  refine makes_bindingIdent.bind fun id hid => makes_atMark.bind fun b _ => ?_
  cases b with
  | true => exact makes_peek.bind fun _ ht => (makes_fail ht.2).bind fun _ (h : False) => h.elim
  | false => exact gives_pure hid.1

theorem makes_params (size : Nat) : Makes P (params size) fun ids => ∀ id ∈ ids, IsName id.name :=
  makes_expectMark.bind fun _ _ => (makes_commaList makes_param size).bind fun _ h =>
    makes_expectMark.bind fun _ _ => gives_pure h

/-! ## Expressions -/

/-- The rules that are nested through give parsed trees. -/
structure Grammar.Makes (P : Position → Prop) (g : Grammar) : Prop where
  assignment : Parser.Makes P g.assignment fun e => e.All (grammatical P)
  statement : Parser.Makes P g.statement fun s => s.All (grammatical P)

theorem makes_statements (hitem : Makes P item fun s => s.All (grammatical P))
    (fuel : Nat) : Makes P (statements item fuel) fun l => Stmt.ListAll (grammatical P) l := by
  induction fuel with
  | zero => exact gives_pure trivial
  | succ fuel ih =>
    refine makes_atMark.bind fun _ _ => makes_ite (gives_pure trivial) ?_
    refine makes_peek.bind fun t _ => ?_
    have hrest : Makes P (do
        let s ← item
        let rest ← statements item fuel
        return s :: rest) fun l => Stmt.ListAll (grammatical P) l :=
      hitem.bind fun _ hs => ih.bind fun _ hl => gives_pure ⟨hs, hl⟩
    cases t.kind.isEof with
    | true => exact makes_unexpected.bind fun _ (_ : True) => hrest
    | false => exact hrest

namespace Grammar

variable {g : Grammar} (H : g.Makes P)

include H

theorem makes_block : Parser.Makes P g.block fun l => Stmt.ListAll (grammatical P) l :=
  makes_expectMark.bind fun _ _ => (makes_statements H.statement g.size).bind fun _ h =>
    makes_expectMark.bind fun _ _ => gives_pure h

theorem makes_arrowFunction : Parser.Makes P g.arrowFunction (Func.Made P) := by
  refine makes_peek.bind fun t ht => makes_atMark.bind fun _ _ => ?_
  refine makes_either (makes_params g.size)
    (makes_bindingIdent.map fun _ h => forall_mem_singleton.2 h.1) fun ids hids => ?_
  refine makes_expectMark.bind fun _ _ => makes_atMark.bind fun _ _ => ?_
  refine makes_either (Q := fun b => b.All (grammatical P)) ((makes_block H).map fun _ h => h)
    (H.assignment.map fun _ h => h) fun body hb => ?_
  exact gives_pure ⟨rfl, ⟨fun id hid => (hids id hid).2, hb⟩, hids, ht.2⟩

theorem makes_classicFunction :
    Parser.Makes P g.classicFunction fun f => f.Made P ∧ f.style = .classic := by
  refine makes_expectWord.bind fun t ht => ?_
  have hrest : ∀ name : Option Ident, (∀ id ∈ name, IsName id.name) → Parser.Makes P (do
        let ps ← params g.size
        let body ← g.block
        return (⟨name, ps, .block body, .classic, t.pos⟩ : Func))
      fun f => f.Made P ∧ f.style = .classic := by
    intro name hname
    refine (makes_params g.size).bind fun ids hids => (makes_block H).bind fun body hb => ?_
    exact gives_pure ⟨⟨⟨rfl, hname⟩, ⟨fun id hid => (hids id hid).2, hb⟩, hids, ht.2⟩, rfl⟩
  refine makes_peek.bind fun u _ => ?_
  obtain ⟨kind, pos, newline⟩ := u
  cases kind with
  | word w =>
    refine (makes_bindingIdent.map ?_).bind hrest
    rintro id hid _ ⟨⟩
    exact hid.1
  | _ => exact hrest none fun _ h => by cases h

theorem makes_expression : Parser.Makes P g.expression fun e => e.All (grammatical P) := by
  refine H.assignment.bind fun e he => makes_atMark.bind fun b _ => ?_
  cases b with
  | true => exact makes_peek.bind fun _ ht => (makes_fail ht.2).bind fun _ (h : False) => h.elim
  | false => exact gives_pure he

theorem makes_objectProp : Parser.Makes P g.objectProp fun p => p.2.All (grammatical P) := by
  refine makes_advance.bind fun t ht => ?_
  have hrest : ∀ key, Parser.Makes P (do
      if ← eatMark ":" then return (key, ← g.assignment)
      else if isReserved key then fail (.reservedShorthand key) t.pos
      else return (key, .ident ⟨key, t.pos⟩)) fun p : String × Expr => p.2.All (grammatical P) := by
    intro key
    refine makes_eatMark.bind fun _ _ => makes_ite ?_ ?_
    · exact H.assignment.bind fun _ h => gives_pure h
    · cases hkey : isReserved key with
      | true => exact makes_fail ht.2
      | false => exact gives_pure ⟨hkey, ht.2⟩
  obtain ⟨kind, pos, newline⟩ := t
  cases kind with
  | word w => exact hrest w
  | str s => exact hrest s
  | number x => exact hrest _
  | _ => exact makes_fail ht.2

theorem makes_arrayItem : Parser.Makes P g.arrayItem fun e => e.All (grammatical P) := by
  refine makes_atMark.bind fun b _ => ?_
  cases b with
  | true => exact makes_peek.bind fun _ ht => (makes_fail ht.2).bind fun _ (h : False) => h.elim
  | false => exact H.assignment

theorem makes_primary : Parser.Makes P g.primary fun e => e.All (grammatical P) := by
  refine makes_peek.bind fun t ht => ?_
  obtain ⟨kind, pos, newline⟩ := t
  split
  · exact makes_advance.bind fun _ _ => gives_pure trivial
  · exact makes_advance.bind fun _ _ => gives_pure trivial
  · exact makes_advance.bind fun _ _ => (makes_expression H).bind fun _ h =>
      makes_expectMark.bind fun _ _ => gives_pure h
  · refine makes_advance.bind fun _ _ => (makes_commaList (makes_arrayItem H) g.size).bind
      fun _ h => ?_
    exact makes_expectMark.bind fun _ _ => gives_pure ⟨trivial, Expr.listAll_iff.2 h⟩
  · refine makes_advance.bind fun _ _ => (makes_commaList (makes_objectProp H) g.size).bind
      fun _ h => ?_
    exact makes_expectMark.bind fun _ _ => gives_pure ⟨trivial, Expr.propAll_iff.2 h⟩
  · exact (makes_classicFunction H).bind fun _ h => gives_pure ⟨h.1.styled, h.1.all⟩
  · rename_i w _ _
    iterate 5 refine makes_ite (makes_advance.bind fun _ _ => gives_pure trivial) ?_
    cases hw : isReserved w with
    | true => exact makes_fail ht.2
    | false => exact makes_advance.bind fun _ _ => gives_pure ⟨hw, ht.2⟩
  · exact makes_unexpected

theorem makes_accesses (fuel : Nat) {e : Expr} (he : e.All (grammatical P)) :
    Parser.Makes P (g.accesses fuel e) fun e' => e'.All (grammatical P) := by
  induction fuel generalizing e with
  | zero => exact gives_pure he
  | succ fuel ih =>
    refine makes_eatMark.bind fun _ _ => makes_ite ?_ ?_
    · refine makes_advance.bind fun t ht => ?_
      obtain ⟨kind, pos, newline⟩ := t
      cases kind with
      | word property => exact ih ⟨ht.1, he⟩
      | _ => exact makes_fail ht.2
    · refine makes_eatMark.bind fun _ _ => makes_ite ?_ ?_
      · exact (makes_expression H).bind fun _ h => makes_expectMark.bind fun _ _ =>
          ih ⟨trivial, he, h⟩
      · refine makes_eatMark.bind fun _ _ => makes_ite ?_ (gives_pure he)
        exact (makes_commaList H.assignment g.size).bind fun _ h =>
          makes_expectMark.bind fun _ _ => ih ⟨trivial, he, Expr.listAll_iff.2 h⟩

theorem makes_postfixed : Parser.Makes P g.postfixed fun e => e.All (grammatical P) := by
  refine makes_peek.bind fun _ ht => (makes_primary H).bind fun e he => ?_
  refine (makes_accesses H g.size he).bind fun e he => makes_peek.bind fun t _ => ?_
  refine makes_ite (gives_pure he) ?_
  cases updateOp? t.kind with
  | none => exact gives_pure he
  | some op =>
    cases htarget : e.isTarget with
    | false => exact (makes_fail ht.2).bind fun _ (h : False) => h.elim
    | true => exact makes_advance.bind fun _ _ => gives_pure ⟨htarget, he⟩

theorem makes_unary (fuel : Nat) :
    Parser.Makes P (g.unary fuel) fun e => e.All (grammatical P) := by
  induction fuel with
  | zero => exact makes_unexpected
  | succ fuel ih =>
    refine makes_peek.bind fun t ht => ?_
    cases unaryOp? t.kind with
    | some op => exact makes_advance.bind fun _ _ => ih.bind fun _ h => gives_pure ⟨trivial, h⟩
    | none =>
      cases updateOp? t.kind with
      | none => exact makes_postfixed H
      | some op =>
        refine makes_advance.bind fun _ _ => ih.bind fun e he => ?_
        cases htarget : e.isTarget with
        | false => exact (makes_fail ht.2).bind fun _ (h : False) => h.elim
        | true => exact gives_pure ⟨htarget, he⟩

omit H in
theorem join_all {j : Joint} {l r : Expr} (hl : l.All (grammatical P))
    (hr : r.All (grammatical P)) :
    (j.join l r).All (grammatical P) := by
  cases j <;> exact ⟨trivial, hl, hr⟩

theorem makes_joined (fuel : Nat) :
    (∀ least, Parser.Makes P (g.joined fuel least) fun e => e.All (grammatical P)) ∧
    ∀ least e, e.All (grammatical P) →
      Parser.Makes P (g.joinedFrom fuel least e) fun e => e.All (grammatical P) := by
  induction fuel with
  | zero => exact ⟨fun _ => makes_unexpected, fun _ _ he => gives_pure he⟩
  | succ fuel ih =>
    refine ⟨fun least => (makes_unary H g.size).bind fun e he => ih.2 least e he,
      fun least e he => ?_⟩
    refine makes_peek.bind fun t _ => ?_
    cases Joint.ofKind? t.kind with
    | none => exact gives_pure he
    | some j =>
      dsimp only
      split
      · exact gives_pure he
      · refine makes_advance.bind fun _ _ => (ih.1 _).bind fun r hr => ?_
        exact ih.2 least _ (join_all he hr)

theorem makes_conditional : Parser.Makes P g.conditional fun e => e.All (grammatical P) := by
  refine ((makes_joined H _).1 0).bind fun test ht => makes_eatMark.bind fun _ _ => ?_
  refine makes_ite ?_ (gives_pure ht)
  refine H.assignment.bind fun _ hc => makes_expectMark.bind fun _ _ => ?_
  exact H.assignment.bind fun _ ha => gives_pure ⟨trivial, ht, hc, ha⟩

theorem makes_assignmentRule : Parser.Makes P g.assignmentRule fun e => e.All (grammatical P) := by
  refine makes_arrowAhead.bind fun _ _ => makes_ite ?_ ?_
  · exact (makes_arrowFunction H).bind fun _ h => gives_pure ⟨h.styled, h.all⟩
  · refine makes_peek.bind fun _ ht => (makes_conditional H).bind fun e he =>
      makes_peek.bind fun t _ => ?_
    cases assignOp? t.kind with
    | none => exact gives_pure he
    | some op =>
      cases htarget : e.isTarget with
      | false => exact (makes_fail ht.2).bind fun _ (h : False) => h.elim
      | true =>
        exact makes_advance.bind fun _ _ => H.assignment.bind fun _ hv =>
          gives_pure ⟨htarget, he, hv⟩

/-! ## Statements -/

def Declares (P : Position → Prop) (d : Declarator) : Prop :=
  Expr.OptAll (grammatical P) d.init ∧ (d.init = none → ∃ id, d.target = .ident id) ∧ P d.pos ∧
    ∀ id ∈ d.target.boundNames, isReserved id.name = false ∧ P id.pos

theorem makes_declarator : Parser.Makes P g.declarator (Declares P) := by
  refine makes_peek.bind fun t ht => (makes_pattern g.size).bind fun target htarget => ?_
  refine makes_eatMark.bind fun _ _ => ?_
  refine makes_either (Q := fun init => Expr.OptAll (grammatical P) init)
    (H.assignment.map fun _ h => h) (gives_pure trivial) fun init hi => ?_
  cases target with
  | ident id => exact gives_pure ⟨hi, fun _ => ⟨id, rfl⟩, ht.2, htarget⟩
  | _ =>
    cases init with
    | some e => exact gives_pure ⟨hi, nofun, ht.2, htarget⟩
    | none => exact makes_fail ht.2

theorem makes_declarators (fuel : Nat) : Parser.Makes P (g.declarators fuel) fun ds =>
    (fuel ≠ 0 → ds ≠ []) ∧ ∀ d ∈ ds, Declares P d := by
  induction fuel with
  | zero => exact gives_pure ⟨fun h => absurd rfl h, fun _ h => by cases h⟩
  | succ fuel ih =>
    refine (makes_declarator H).bind fun d hd => makes_eatMark.bind fun _ _ => makes_ite ?_ ?_
    · refine ih.bind fun ds hds => gives_pure ⟨fun _ => cons_ne_nil d ds, ?_⟩
      exact forall_mem_cons.2 ⟨hd, hds.2⟩
    · exact gives_pure ⟨fun _ => cons_ne_nil d [], forall_mem_singleton.2 hd⟩

theorem makes_declaration (hsize : g.size ≠ 0) (kind : DeclKind) :
    Parser.Makes P (g.declaration kind) fun d => (Stmt.decl d).All (grammatical P) := by
  refine makes_advance.bind fun _ _ => (makes_declarators H g.size).bind fun ds hds => gives_pure ?_
  refine ⟨⟨hds.1 hsize, fun d hd => ?_⟩, Declarator.listAll_iff.2 fun d hd => ?_⟩
  · exact ⟨(hds.2 d hd).2.1, (hds.2 d hd).2.2.1, fun id hid => ((hds.2 d hd).2.2.2 id hid).2⟩
  · exact ⟨fun id hid => ((hds.2 d hd).2.2.2 id hid).1, (hds.2 d hd).1⟩

theorem makes_parenthesized : Parser.Makes P g.parenthesized fun e => e.All (grammatical P) :=
  makes_expectMark.bind fun _ _ => (makes_expression H).bind fun _ h =>
    makes_expectMark.bind fun _ _ => gives_pure h

theorem makes_branch : Parser.Makes P g.branch fun s => s.All (grammatical P) := by
  refine makes_advance.bind fun _ _ => (makes_parenthesized H).bind fun _ ht => ?_
  refine H.statement.bind fun _ hc => makes_atWord.bind fun _ _ => makes_ite ?_ ?_
  · exact makes_advance.bind fun _ _ => H.statement.bind fun _ ha => gives_pure ⟨ht, hc, ha⟩
  · exact gives_pure ⟨ht, hc, trivial⟩

theorem makes_forInit (hsize : g.size ≠ 0) :
    Parser.Makes P g.forInit fun init => ForInit.OptAll (grammatical P) init := by
  refine makes_atMark.bind fun _ _ => makes_ite (gives_pure trivial) (makes_peek.bind fun t _ => ?_)
  cases declKind? t.kind with
  | some kind => exact (makes_declaration H hsize kind).bind fun ⟨_, _⟩ h => gives_pure h
  | none => exact (makes_expression H).bind fun _ h => gives_pure h

theorem makes_before? (m : String) :
    Parser.Makes P (g.before? m) fun e? => Expr.OptAll (grammatical P) e? :=
  makes_atMark.bind fun _ _ => makes_ite (gives_pure trivial)
    ((makes_expression H).bind fun _ h => gives_pure h)

theorem makes_forLoop (hsize : g.size ≠ 0) :
    Parser.Makes P g.forLoop fun s => s.All (grammatical P) := by
  refine makes_advance.bind fun _ _ => makes_expectMark.bind fun _ _ => ?_
  refine (makes_forInit H hsize).bind fun init hi => makes_peek.bind fun t htoken => ?_
  have hrest : Parser.Makes P (do
      expectMark ";"
      let test ← g.before? ";"
      expectMark ";"
      let update ← g.before? ")"
      expectMark ")"
      let body ← g.statement
      return Stmt.forLoop init test update body) fun s => s.All (grammatical P) := by
    refine makes_expectMark.bind fun _ _ => (makes_before? H ";").bind fun _ ht => ?_
    refine makes_expectMark.bind fun _ _ => (makes_before? H ")").bind fun _ hu => ?_
    exact makes_expectMark.bind fun _ _ => H.statement.bind fun _ hb => gives_pure ⟨hi, ht, hu, hb⟩
  exact makes_ite ((makes_fail htoken.2).bind fun _ (h : False) => h.elim) hrest

theorem makes_returned : Parser.Makes P g.returned fun s => s.All (grammatical P) := by
  refine makes_advance.bind fun _ _ => makes_peek.bind fun t _ => ?_
  refine makes_either (Q := fun e? => Expr.OptAll (grammatical P) e?) (gives_pure trivial)
    ((makes_expression H).map fun _ h => h) fun _ h => ?_
  exact makes_semicolon.bind fun _ _ => gives_pure h

theorem makes_expressionStatement :
    Parser.Makes P g.expressionStatement fun s => s.All (grammatical P) :=
  (makes_expression H).bind fun _ h => makes_semicolon.bind fun _ _ => gives_pure h

omit H in
/-- A function whose name follows its keyword has a name. -/
theorem isSome_name_classicFunction {c : Cursor} (hnext : (c.rest.headD c.token).kind = .word w)
    (h : g.classicFunction c = .ok (f, c')) : f.name.isSome = true := by
  obtain ⟨t, rest⟩ := c
  obtain ⟨u, c₁, hu, h⟩ := StateT.bind_eq_ok h
  have hadvance : advance ⟨t, rest⟩ = .ok (u, c₁) := by
    obtain ⟨b, _, hb, hu⟩ := StateT.bind_eq_ok hu
    obtain ⟨_, _, hpeek, hb⟩ := StateT.bind_eq_ok hb
    cases hpeek
    cases hb
    split at hu
    · exact hu
    · cases hu
  have hkind : c₁.token.kind = .word w := by
    cases rest with
    | nil =>
      cases hadvance
      exact hnext
    | cons v rest =>
      cases hadvance
      exact hnext
  obtain ⟨v, c₂, hv, h⟩ := StateT.bind_eq_ok h
  cases hv
  rw [hkind] at h
  obtain ⟨name, c₃, hname, h⟩ := StateT.bind_eq_ok h
  rw [map_eq_pure_bind] at hname
  obtain ⟨id, c₄, -, hname⟩ := StateT.bind_eq_ok hname
  cases hname
  obtain ⟨ps, c₅, -, h⟩ := StateT.bind_eq_ok h
  obtain ⟨body, c₆, -, h⟩ := StateT.bind_eq_ok h
  cases h
  rfl

theorem makes_functionStatement : Parser.Makes P (do
    match (← peekNext).kind with
    | .word _ => return .func (← g.classicFunction)
    | _ => g.expressionStatement) fun s => s.All (grammatical P) := by
  intro c hc
  rw [StateT.bind_ok (show peekNext c = .ok (c.rest.headD c.token, c) from rfl)]
  cases hnext : (c.rest.headD c.token).kind with
  | word w =>
    have hmade := makes_classicFunction H c hc
    show Except.Ends _ _ (g.classicFunction c >>= fun r => .ok (Stmt.func r.1, r.2))
    cases hend : g.classicFunction c with
    | error e =>
      rw [hend] at hmade
      exact hmade
    | ok r =>
      rw [hend] at hmade
      obtain ⟨⟨hf, hclassic⟩, hc'⟩ := hmade
      have hname := isSome_name_classicFunction hnext hend
      refine ⟨⟨⟨hf.styled, hclassic, hname⟩, fun id hid => ?_, hf.all⟩, hc'⟩
      obtain ⟨⟨name, params, body, style, pos⟩, c'⟩ := r
      cases hclassic
      exact (hf.styled.2 id hid).2
  | _ => exact makes_expressionStatement H c hc

theorem makes_wordStatement (hsize : g.size ≠ 0) (w : String) (hpos : P pos) :
    Parser.Makes P (g.wordStatement w pos) fun s => s.All (grammatical P) := by
  unfold wordStatement
  split
  · exact (makes_declaration H hsize _).bind fun _ h => makes_semicolon.bind fun _ _ => gives_pure h
  · refine makes_ite (makes_branch H) (makes_ite (makes_forLoop H hsize) (makes_ite ?_ ?_))
    · refine makes_advance.bind fun _ _ => (makes_parenthesized H).bind fun _ ht => ?_
      exact H.statement.bind fun _ hb => gives_pure ⟨ht, hb⟩
    · refine makes_ite (makes_returned H) (makes_ite ?_ (makes_ite ?_ ?_))
      · exact makes_advance.bind fun _ _ => makes_semicolon.bind fun _ _ => gives_pure trivial
      · exact makes_advance.bind fun _ _ => makes_semicolon.bind fun _ _ => gives_pure trivial
      · exact makes_ite (makes_functionStatement H)
          (makes_ite (makes_fail hpos) (makes_expressionStatement H))

theorem makes_statementRule (hsize : g.size ≠ 0) :
    Parser.Makes P g.statementRule fun s => s.All (grammatical P) := by
  refine makes_peek.bind fun t ht => ?_
  split
  · exact (makes_block H).bind fun _ h => gives_pure h
  · exact makes_advance.bind fun _ _ => gives_pure trivial
  · exact makes_wordStatement H hsize _ ht.2
  · exact makes_expressionStatement H

/-! ## Scripts -/

/-- The root function has the form that the rules give it, and one parameter. -/
theorem makes_program :
    Parser.Makes P g.program fun p => p.root.Made P ∧ p.root.params.length = 1 := by
  have hrest : ∀ root : Func, root.Made P → Parser.Makes P (do
        let _ ← eatMark ";"
        if !(← peek).kind.isEof then unexpected "end of input after the root function"
        if root.params.length ≠ 1 then fail (.wrongParamCount root.params.length) root.pos
        return (⟨root⟩ : Program)) fun p => p.root.Made P ∧ p.root.params.length = 1 := by
    intro root hroot
    have hlast : Parser.Makes P (do
        if root.params.length ≠ 1 then fail (.wrongParamCount root.params.length) root.pos
        return (⟨root⟩ : Program)) fun p => p.root.Made P ∧ p.root.params.length = 1 := by
      split
      · exact (makes_fail hroot.pos).bind fun _ (h : False) => h.elim
      · rename_i hone
        exact gives_pure ⟨hroot, Decidable.not_not.1 hone⟩
    refine makes_eatMark.bind fun _ _ => makes_peek.bind fun t _ => ?_
    exact makes_ite (makes_unexpected.bind fun _ (_ : True) => hlast) hlast
  refine makes_peek.bind fun t ht => makes_atWord.bind fun isFunction _ => ?_
  refine makes_arrowAhead.bind fun isArrow _ => ?_
  cases isFunction with
  | true => exact (makes_classicFunction H).bind fun root h => hrest root h.1
  | false =>
    cases isArrow with
    | true => exact (makes_arrowFunction H).bind hrest
    | false => exact (makes_fail ht.2).bind hrest

end Grammar

mutual

theorem makes_assignment (hsize : size ≠ 0) (depth : Nat) :
    Makes P (assignment size depth) fun e => e.All (grammatical P) := by
  match depth with
  | 0 => exact makes_unexpected
  | depth + 1 =>
    exact Grammar.makes_assignmentRule
      ⟨makes_assignment hsize depth, makes_statement hsize depth⟩

theorem makes_statement (hsize : size ≠ 0) (depth : Nat) :
    Makes P (statement size depth) fun s => s.All (grammatical P) := by
  match depth with
  | 0 => exact makes_unexpected
  | depth + 1 =>
    exact Grammar.makes_statementRule
      ⟨makes_assignment hsize depth, makes_statement hsize depth⟩ hsize

end

theorem makes_grammar (hsize : size ≠ 0) : (grammar size).Makes P :=
  ⟨makes_assignment hsize _, makes_statement hsize _⟩

end Parser

theorem Parser.run_program_ends (h : ∀ t ∈ tokens, t.kind.Worded ∧ P t.pos) (hstart : P .start) :
    Except.Ends (CompileError.ParseAt P) (fun r => r.1.root.Made P ∧ r.1.root.params.length = 1)
      (Parser.run (Parser.grammar (tokens.length + 1)).program tokens) := by
  have hprogram := Grammar.makes_program (makes_grammar (P := P) (Nat.succ_ne_zero tokens.length))
  have hc : ∀ c : Cursor, c.Worded P → Except.Ends (CompileError.ParseAt P)
      (fun r => r.1.root.Made P ∧ r.1.root.params.length = 1)
      ((grammar (tokens.length + 1)).program c) := fun c hc => by
    have := hprogram c hc
    revert this
    cases (grammar (tokens.length + 1)).program c with
    | error e => exact id
    | ok r => exact And.left
  cases tokens with
  | nil => exact hc _ (forall_mem_singleton.2 ⟨trivial, hstart⟩)
  | cons t rest => exact hc ⟨t, rest⟩ h

/-- **A parsed script has the form that the rules give it**, and one parameter. -/
theorem parse_grammatical (h : parse source = .ok p) :
    p.root.Made (fun _ => True) ∧ p.root.params.length = 1 := by
  obtain ⟨tokens, htokens, h⟩ := Except.of_bind_eq_ok h
  obtain ⟨⟨q, c⟩, hrun, h⟩ := Except.of_bind_eq_ok h
  cases h
  have hmade := Parser.run_program_ends (P := fun _ => True)
    (fun t ht => ⟨tokensFrom_worded htokens t ht, trivial⟩) trivial
  rw [hrun] at hmade
  exact hmade

theorem parse_params (h : parse source = .ok p) : p.root.params.length = 1 :=
  (parse_grammatical h).2

end BarScript

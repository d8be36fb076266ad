import BarScript.Proofs.Naming.Shaped
import BarScript.Proofs.RoundTrip.Grammatical
import BarScript.Proofs.RoundTrip.Texts

/-!
# Compiled scripts are read back

The passes of the compiler keep the form that the grammar gives to a tree: they
insert words where words belong, assign to slots, and leave functions of their
style. So what the text of a compiled script can lose is little. A quoted key may
have become a name that is no word, the digits of a number too large are those of
a name, an empty place at the end of a target is not printed, and the value of an
arrow function may begin with a brace. Where none of these occurs, binding reads
the compiled tree back.
-/

namespace BarScript

open Printer

/-! ## Shapes -/

def Pattern.Keyed : Pattern → Prop
  | .object props => ∀ p ∈ props, isWordText p.1 = true
  | _ => True

/-- The names of a tree and the keys of its targets are words. Of the names in a
script, only keys in quotes can fail to be. -/
def worded : Shape where
  expr
    | .ident id => isWordText id.name = true
    | _ => True
  name x := isWordText x = true
  decls ds := ∀ d ∈ ds, d.target.Keyed

instance : DecidablePred Pattern.Keyed := fun p => by
  cases p <;> unfold Pattern.Keyed <;> infer_instance

instance : DecidablePred worded.expr
  | .ident id => inferInstanceAs (Decidable (isWordText id.name = true))
  | .number _ | .str _ | .bool _ | .null | .undefined | .this | .func _ | .member _ _ | .index _ _
  | .call _ _ | .unary _ _ | .update _ _ _ | .binary _ _ _ | .logical _ _ _ | .conditional _ _ _
  | .assign _ _ _ | .array _ | .object _ => .isTrue trivial

instance : DecidablePred worded.name := fun x => inferInstanceAs (Decidable (isWordText x = true))

instance : DecidablePred worded.decls := fun ds =>
  inferInstanceAs (Decidable (∀ d ∈ ds, d.target.Keyed))

instance : DecidablePred worded.named := fun _ => .isTrue trivial

/-- The form of a node that the passes keep. -/
def Expr.Regular : Expr → Prop
  | .ident id => IsName id.name
  | .member _ property => isWordText property = true
  | .update _ _ target => target.isTarget = true
  | .assign _ target _ => target.isTarget = true
  | .func f => f.Styled
  | _ => True

def regular : Shape where
  expr := Expr.Regular
  name := IsName
  decls ds := ds ≠ [] ∧ ∀ d ∈ ds, d.target.Keyed ∧ (d.init = none → ∃ id, d.target = .ident id)
  named f := f.Styled ∧ f.style = .classic ∧ f.name.isSome = true

theorem grammatical_meet : (grammatical P).Meet worded regular where
  expr e h h' := by
    cases e with
    | ident id => exact ⟨h', h.1⟩
    | _ => exact h
  name _ h h' := ⟨h', h⟩
  decls _ h h' := ⟨h.1, fun d hd => ⟨h' d hd, (h.2 d hd).1⟩⟩
  named _ h _ := h

def Pattern.Filled : Pattern → Prop
  | .array items => items.getLast? ≠ some none
  | _ => True

/-- The value of an arrow function does not begin with a brace, unless it is an
object literal. -/
def Func.Braceless : Func → Prop
  | ⟨_, _, .expr e, _, _⟩ => e.isObject = true ∨ e.leading.isMark "\x7b" = false
  | _ => True

def intact : Shape where
  expr
    | .number x => Number.ReadsBack x
    | .func f => f.Braceless
    | _ => True
  name _ := True
  decls ds := ∀ d ∈ ds, d.target.Filled

instance : DecidablePred Pattern.Filled := fun p => by
  cases p <;> unfold Pattern.Filled <;> infer_instance

instance : DecidablePred Func.Braceless := fun f => by
  obtain ⟨name, params, body, style, pos⟩ := f
  cases body <;> unfold Func.Braceless <;> infer_instance

instance : DecidablePred intact.expr
  | .number x => inferInstanceAs (Decidable (Number.ReadsBack x))
  | .func f => inferInstanceAs (Decidable f.Braceless)
  | .str _ | .bool _ | .null | .undefined | .this | .ident _ | .member _ _ | .index _ _
  | .call _ _ | .unary _ _ | .update _ _ _ | .binary _ _ _ | .logical _ _ _ | .conditional _ _ _
  | .assign _ _ _ | .array _ | .object _ => .isTrue trivial

instance : DecidablePred intact.name := fun _ => .isTrue trivial

instance : DecidablePred intact.decls := fun ds =>
  inferInstanceAs (Decidable (∀ d ∈ ds, d.target.Filled))

instance : DecidablePred intact.named := fun _ => .isTrue trivial

theorem Func.Styled.written {f : Func} (h : f.Styled) (h' : f.Braceless) : f.Written := by
  obtain ⟨name, params, body, style, pos⟩ := f
  cases style with
  | arrow =>
    cases body with
    | block stmts => exact h
    | expr e => exact ⟨h, h'⟩
  | classic =>
    cases body with
    | block stmts => exact h.2
    | expr e => exact absurd h.1 Bool.false_ne_true

theorem regular_meet : regular.Meet intact written where
  expr e h h' := by
    cases e with
    | number x => exact h'
    | func f => exact Func.Styled.written h h'
    | _ => exact h
  name _ h _ := h
  decls ds h h' := by
    refine ⟨h.1, fun d hd => ⟨?_, (h.2 d hd).2⟩⟩
    have hkeyed := (h.2 d hd).1
    have hfilled := h' d hd
    generalize d.target = target at hkeyed hfilled
    cases target with
    | ident id => trivial
    | object props => exact hkeyed
    | array items => exact hfilled
  named f h _ := by
    refine ⟨h.1.written ?_, h.2⟩
    obtain ⟨name, params, body, style, pos⟩ := f
    obtain ⟨hstyled, hclassic, -⟩ := h
    cases hclassic
    cases body with
    | block stmts => trivial
    | expr e => exact absurd hstyled.1 Bool.false_ne_true

/-! ## Words that the passes insert -/

theorem continuesWord_of_isDigit {c : Char} (h : c.isDigit = true) : continuesWord c = true := by
  obtain ⟨-, hnine⟩ := Char.isDigit_iff_toNat.1 h
  have hascii : c.toNat < 128 := lt_of_le_of_lt hnine (by decide)
  have hnumeral : Text.isNumeral c = true := by rw [Text.isNumeral, if_pos hascii, h]
  simp [continuesWord, hnumeral]

theorem continuesWord_repr (n : Nat) : ∀ c ∈ (Nat.repr n).toList, continuesWord c = true := by
  intro c hc
  rw [Nat.repr_eq_ofList_toDigits, String.toList_ofList] at hc
  exact continuesWord_of_isDigit (Number.isDigit_toDigits n c hc)

/-- A word with characters behind it that continue words. -/
theorem isWordText_append (hw : isWordText w = true) {t : String}
    (ht : ∀ c ∈ t.toList, continuesWord c = true) : isWordText (w ++ t) = true := by
  unfold isWordText at hw ⊢
  rw [String.toList_append]
  cases hchars : w.toList with
  | nil =>
    rw [hchars] at hw
    cases hw
  | cons c cs =>
    rw [hchars] at hw
    simp only [List.cons_append, List.all_append, Bool.and_eq_true, List.all_eq_true] at hw ⊢
    exact ⟨hw.1, hw.2, ht⟩

theorem continuesWord_of_isWordText (hw : isWordText w = true) :
    ∀ c ∈ w.toList, continuesWord c = true := by
  unfold isWordText at hw
  cases hchars : w.toList with
  | nil => exact fun _ h => nomatch h
  | cons c cs =>
    rw [hchars] at hw
    simp only [Bool.and_eq_true, List.all_eq_true] at hw
    exact List.forall_mem_cons.2 ⟨continuesWord_of_beginsWord hw.1, hw.2⟩

theorem isWordText_slotName (kind : ScopeKind) (serial : Nat) (hx : isWordText x = true) :
    isWordText (Scopes.slotName kind serial x) = true := by
  have hmark : isWordText kind.mark = true := by cases kind <;> decide
  have hjoin : ∀ c ∈ "_".toList, continuesWord c = true := by simp [continuesWord]
  exact isWordText_append (isWordText_append (isWordText_append hmark (continuesWord_repr serial))
    hjoin)
    (continuesWord_of_isWordText hx)

theorem isName_tempName (n : Nat) : IsName (Scopes.tempName n) := by
  refine ⟨isWordText_append (by decide) (continuesWord_repr n), ?_⟩
  have hhead : ∀ w ∈ reservedWords, w.toList.head? ≠ some '_' := by decide
  have hnot : Scopes.tempName n ∉ reservedWords := by
    intro hmem
    refine hhead _ hmem ?_
    simp [Scopes.tempName]
  simpa [isReserved] using hnot

/-! ## Passes -/

theorem Func.Styled.withBody {f : Func} (h : f.Styled) {body : FuncBody}
    (hbody : body.isBlock = f.body.isBlock) : Func.Styled { f with body } := by
  obtain ⟨name, params, old, style, pos⟩ := f
  cases style with
  | arrow => exact h
  | classic => exact ⟨hbody.trans h.1, h.2⟩

theorem regular_redeclares : regular.Redeclares regular := by
  intro ds l h hne hlike
  refine ⟨hne h.1, fun d hd => ?_⟩
  obtain ⟨d', hd', htarget, hinit, -⟩ := hlike d hd
  rw [htarget]
  refine ⟨(h.2 d' hd').1, fun hnone => (h.2 d' hd').2 ?_⟩
  rw [hnone] at hinit
  exact Option.isSome_eq_false_iff.1 hinit.symm |> Option.isNone_iff_eq_none.1

theorem Expr.isTarget_normal (root : String) (e : Expr) (p : NormalForm.Progress) :
    (e.normal root p).1.isTarget = e.isTarget := by
  cases e <;> rfl

theorem normal_keeps_regular : NormalForm.Keeps root names regular where
  expr {e} p he := by
    cases e with
    | func f =>
      obtain ⟨body, hbody, hkind⟩ := Func.normal_eq root f p
      show Func.Styled (f.normal root p).1
      rw [hbody]
      exact Func.Styled.withBody he hkind
    | update op first t => exact (t.isTarget_normal root p).trans he
    | assign op t v => exact (t.isTarget_normal root p).trans he
    | _ => exact he
  named {f} p h := by
    obtain ⟨body, hbody, hkind⟩ := Func.normal_eq root f p
    rw [hbody]
    exact ⟨h.1.withBody hkind, h.2⟩
  decls := regular_redeclares
  hoisted _ _ _ h := ⟨⟨rfl, by rintro _ ⟨⟩; exact h⟩, rfl, rfl⟩
  temp i _ := isName_tempName i
  single id init pos := ⟨List.cons_ne_nil _ _,
    List.forall_mem_singleton.2 ⟨trivial, fun _ => ⟨id, rfl⟩⟩⟩
  tuple _ _ _ _ _ _ _ _ h := h

def Frame.Worded (f : Frame) : Prop :=
  ∀ v ∈ f.vars, isWordText v.2.slot = true

section Slotting

open Naming

variable {s : Scopes} {options : Options} {root : String}

/-- What is assigned to stays a name, a field or an element. -/
theorem Naming.RendersTarget.isTarget (h : SlotsTarget s c F t t' l) (ht : t.isTarget = true) :
    t'.isTarget = true := by
  cases h with
  | name _ h => cases h <;> rfl
  | member | index => rfl
  | raw => exact ht

theorem slotted_keeps_regular (hroot : IsName root) :
    Forms s ⟨options, root⟩ Frame.Worded regular regular where
  enter _ _ _ h := nomatch h
  hand _ hf := hf
  count _ hf := hf
  declare _ _ hx hf := List.forall_mem_cons.2 ⟨isWordText_slotName _ _ hx.1, hf⟩
  kept _ := rfl
  name hx := hx
  decls := regular_redeclares
  plain {e} h := by
    cases e with
    | ident | member | update | assign | func => exact h.elim
    | _ => trivial
  ident h := h
  member h := h
  context := hroot
  field _ h := by
    have hfields : ∀ x ∈ Slotted.contextFields, isWordText x = true := by decide
    exact hfields _ h
  slot _ hF h := by
    obtain ⟨f, hf, hvar⟩ := Scopes.mem_of_resolve? h
    exact hF f hf _ hvar
  fresh _ _ hx := isWordText_slotName _ _ hx.1
  number _ := trivial
  zero := trivial
  declared _ _ := rfl
  assign _ _ he ht := ht.isTarget he
  update _ he ht := ht.isTarget he
  func he hf := by
    obtain ⟨body, rfl, hkind⟩ := hf.withBody
    exact Func.Styled.withBody he hkind
  named h hf := by
    obtain ⟨body, rfl, hkind⟩ := hf.withBody
    exact ⟨h.1.withBody hkind, h.2⟩

end Slotting

theorem Expr.isTarget_tolerant (root : String) {e : Expr} (h : e.isTarget = true) :
    (e.tolerant root).isTarget = true := by
  cases e with
  | ident | member | index => rfl
  | _ => cases h

theorem tolerant_keeps_regular (hroot : IsName root) : Equality.Keeps root regular where
  plain {e} h _ _ := by
    cases e with
    | ident | member | update | assign | func => exact h.elim
    | _ => trivial
  call _ := trivial
  binary _ := trivial
  member h := h
  equality _ := trivial
  context := hroot
  field _ h := by
    have hfields : ∀ x ∈ ["math", "__eq"], isWordText x = true := by decide
    exact hfields _ h
  assign h := Expr.isTarget_tolerant root h
  update h := Expr.isTarget_tolerant root h
  func {f} h := by
    obtain ⟨body, hbody, hkind⟩ := Func.tolerant_eq root f
    rw [hbody]
    exact Func.Styled.withBody h hkind
  named {f} h := by
    obtain ⟨body, hbody, hkind⟩ := Func.tolerant_eq root f
    rw [hbody]
    exact ⟨h.1.withBody hkind, h.2⟩
  decls := regular_redeclares

/-! ## Binding -/

/-- What the text of a compiled script does not lose: its numbers are read back from
their digits, no target ends in an empty place, and the value of no arrow function
begins with a brace unless it is an object literal. -/
def Program.Intact (q : Program) : Prop :=
  q.root.Braceless ∧ q.root.All intact

instance : DecidablePred Program.Intact := fun _ => inferInstanceAs (Decidable (_ ∧ _))

/-- **Binding gives back what was compiled.** If a script compiles, its artifact is
read as the compiled tree, up to positions and to braces around single statements,
unless a quoted key became a name or a key that is no word, or the compiled tree has
something that its text loses. -/
theorem compiled_text_reads_back {options : Options} {source : String} {artifact : Artifact}
    (h : compile options source = .ok artifact) :
    ∃ p q counters, parse source = .ok p ∧ p.compiled options = .ok (q, counters) ∧
      (p.root.All worded → q.Intact →
        ∃ bound, artifact.program = .ok bound ∧ bound.bare = q.bare) := by
  obtain ⟨p, hparse, h⟩ := Except.of_bind_eq_ok h
  obtain ⟨⟨q, counters⟩, hcompiled, h⟩ := Except.of_bind_eq_ok h
  cases h
  refine ⟨p, q, counters, hparse, hcompiled, fun hworded hintact => ?_⟩
  obtain ⟨⟨hstyled, hall, hnames, -⟩, hone⟩ := parse_grammatical hparse
  have hregular : p.root.All regular := hall.meet grammatical_meet hworded
  have hroot : IsName p.rootParam := by
    unfold Program.rootParam
    cases hparams : p.root.params with
    | nil =>
      rw [hparams] at hone
      exact nomatch hone
    | cons id rest => exact hnames id (hparams ▸ List.mem_cons_self)
  obtain ⟨⟨name, params, body, style, pos⟩⟩ := p
  obtain ⟨body', rfl, hbody, hkind⟩ :=
    Naming.compiled_shaped hcompiled (slotted_keeps_regular hroot).keeping normal_keeps_regular
      hregular.2 (fun _ _ _ => trivial) (fun _ _ => trivial) (tolerant_keeps_regular hroot)
  have hstyled' := hstyled.withBody hkind
  have hall' : Func.All regular ⟨name, params, body', style, pos⟩ := ⟨hregular.1, hbody⟩
  exact Program.text_reads _ (hstyled'.written hintact.1) (hall'.meet regular_meet hintact.2) hone

/-- A script that declares slots in a loop and a function, reads them back, compares,
and hands a function to a call. -/
def loopingText : String :=
  "c => \x7b const \x7b close: x \x7d = c.data; let y = 0.5; " ++
    "for (let i = 0; i < 3; i++) if (x[1] == y) \x7b let z = -y ** 2; y = z \x7d " ++
    "const f = (a) => (\x7b 'odd key': a, y \x7d); " ++
    "let [u, , v] = ta.macd(x, 12, f, (b) => b); return [f(u), v] \x7d"

theorem compiled_text_reads_back_looping :
    ∃ artifact p q counters bound, compile {} loopingText = .ok artifact ∧
      parse loopingText = .ok p ∧ p.compiled {} = .ok (q, counters) ∧ p.root.All worded ∧ q.Intact ∧
      artifact.program = .ok bound ∧ bound.bare = q.bare := by
  have h : Except.gives (fun p => decide (p.root.All worded) &&
      Except.gives (fun r => decide (r.1.Intact)) (p.compiled {})) (parse loopingText) = true := by
    refine gives_parse (toList_append_of (toList_append_of (toList_append_of String.toList_ofList
      String.toList_ofList) String.toList_ofList) String.toList_ofList) ?_
    decide +kernel
  obtain ⟨p, hparse, h⟩ := Except.exists_of_gives h
  obtain ⟨hworded, h⟩ := Bool.and_eq_true_iff.1 h
  obtain ⟨⟨q, counters⟩, hcompiled, hintact⟩ := Except.exists_of_gives h
  have hcompile : compile {} loopingText =
      .ok { source := q.text, rootParam := p.rootParam, counters } := by
    unfold compile
    rw [hparse]
    show (p.compiled {} >>= _) = _
    rw [hcompiled]
    rfl
  obtain ⟨p', q', counters', hparse', hcompiled', hbinds⟩ := compiled_text_reads_back hcompile
  cases hparse.symm.trans hparse'
  cases hcompiled.symm.trans hcompiled'
  obtain ⟨bound, hbound, hbare⟩ := hbinds (of_decide_eq_true hworded) (of_decide_eq_true hintact)
  exact ⟨_, p, q, counters, bound, hcompile, hparse, hcompiled, of_decide_eq_true hworded,
    of_decide_eq_true hintact, hbound, hbare⟩

/-- A key of a target is printed without its quotes. So this script compiles, and its
artifact cannot be bound. -/
theorem quoted_key_unbindable :
    ∃ artifact,
      compile {} "c => \x7b const \x7b \"a b\": x \x7d = c.data; return 1 \x7d" = .ok artifact ∧
      ∀ bound, artifact.program ≠ .ok bound := by
  have h : Except.gives (fun a => !Except.gives (fun _ => true) a.program)
      (compile {} "c => \x7b const \x7b \"a b\": x \x7d = c.data; return 1 \x7d") = true := by
    decide +kernel
  obtain ⟨artifact, hcompile, h⟩ := Except.exists_of_gives h
  refine ⟨artifact, hcompile, fun bound hbound => ?_⟩
  rw [hbound] at h
  exact nomatch h

end BarScript

import BarScript.Proofs.Passes.Normal
import BarScript.Proofs.RoundTrip.Lexemes

/-!
# Trees that can be written

Not every tree has a text: a name has to be a word that is not reserved, and what
is assigned to has to be a name, a field or an element. Other trees have a text
that is read as something else: the keys of object patterns are printed without
quotes, numbers that are not finite are printed as names, empty places at the end
of an array pattern are dropped, and a brace that begins the value of an arrow
function is read as the beginning of its body. `written` is the shape of the trees
without any of these, and the lexer reads what is printed of them token by token.
-/

namespace BarScript

open Printer Lexeme List TokenKind

variable {m w : String} {b : Bool} {c : Char} {e : Expr} {ls : List Lexeme} {k : TokenKind}
  {lead rest : List Char} {depth : Nat}

/-! ## The first token of an expression -/

/-- The first token of what may stand in parentheses. -/
def TokenKind.opened (b : Bool) (k : TokenKind) : TokenKind :=
  if b then .mark "(" else k

def FuncStyle.leading : FuncStyle → TokenKind
  | .arrow => .mark "("
  | .classic => .word "function"

def Expr.leading : Expr → TokenKind
  | .number x => .number x
  | .str s => .str s
  | .bool b => .word (Outline.bool b)
  | .null => .word "null"
  | .undefined => .word "undefined"
  | .ident id => .word id.name
  | .this => .word "this"
  | .member base _ => base.leading.opened (needsParens base)
  | .index base _ => base.leading.opened (needsParens base)
  | .call callee _ => callee.leading.opened (needsParens callee)
  | .unary op _ => .mark op.symbol
  | .update op first target =>
    if first then .mark op.symbol else target.leading.opened (needsParens target)
  | .binary op left _ => left.leading.opened (strength left < op.precedence ||
      (op == .pow && (strength left == op.precedence || strength left == unaryStrength)))
  | .logical op left _ => left.leading.opened (strength left < op.precedence)
  | .conditional test _ _ => test.leading.opened (strength test ≤ conditionalStrength)
  | .assign _ target _ => target.leading.opened (needsParens target)
  | .array _ => .mark "["
  | .object _ => .mark "\x7b"
  | .func f => f.style.leading

theorem Lexeme.head_parensIf {ls : List Char → List Lexeme}
    (h : ∀ lead, ∃ tail, ls lead = ⟨lead, k⟩ :: tail) (lead : List Char) :
    ∃ tail, Lexeme.parensIf b ls lead = ⟨lead, k.opened b⟩ :: tail := by
  cases b with
  | true => exact ⟨_, rfl⟩
  | false => exact h lead

theorem Lexeme.head_head (name : Option Ident) (ids : List Ident) (style : FuncStyle)
    (lead : List Char) : ∃ tail, head ids style name lead = ⟨lead, style.leading⟩ :: tail := by
  cases style with
  | arrow => exact ⟨_, rfl⟩
  | classic => cases name <;> exact ⟨_, rfl⟩

theorem Func.head_lexemes (depth : Nat) (f : Func) (lead : List Char) :
    ∃ tail, f.lexemes depth lead = ⟨lead, f.style.leading⟩ :: tail := by
  obtain ⟨name, params, body, style, pos⟩ := f
  obtain ⟨tail, h⟩ := head_head name params style lead
  cases body <;> exact ⟨_, by rw [Func.lexemes, h]; rfl⟩

/-- The first token of an expression comes with the blanks in front of it. -/
theorem Expr.head_lexemes (depth : Nat) (e : Expr) (lead : List Char) :
    ∃ tail, e.lexemes depth lead = ⟨lead, e.leading⟩ :: tail := by
  match e with
  | .number _ | .str _ | .bool _ | .null | .undefined | .ident _ | .this | .unary _ _ | .array _
  | .object [] | .object (_ :: _) => exact ⟨_, rfl⟩
  | .member base _ | .index base _ | .call base _ | .assign _ base _ =>
    obtain ⟨tail, h⟩ := head_parensIf (base.head_lexemes depth) lead
    exact ⟨_, by rw [Expr.lexemes, h]; rfl⟩
  | .update op first target =>
    cases first with
    | true => exact ⟨_, rfl⟩
    | false =>
      obtain ⟨tail, h⟩ := head_parensIf (target.head_lexemes depth) lead
      exact ⟨_, by rw [Expr.lexemes, h]; rfl⟩
  | .binary _ first _ | .logical _ first _ | .conditional first _ _ =>
    obtain ⟨tail, h⟩ := head_parensIf (first.head_lexemes depth) lead
    exact ⟨_, by rw [Expr.lexemes, h]; rfl⟩
  | .func f => exact f.head_lexemes depth lead

/-! ## The shape -/

/-- A word that a script may give to something as its name. -/
def IsName (x : String) : Prop :=
  isWordText x = true ∧ isReserved x = false

instance : DecidablePred IsName := fun _ => inferInstanceAs (Decidable (_ ∧ _))

/-- A target that is read back: its keys are words, and no empty place ends it. -/
def Pattern.Written : Pattern → Prop
  | .ident _ => True
  | .object props => ∀ p ∈ props, isWordText p.1 = true
  | .array items => items.getLast? ≠ some none

/-- A function that is read back. A brace after the arrow begins statements, so
the value of an arrow function does not begin with one, unless it is an object
literal, which is printed in parentheses. -/
def Func.Written : Func → Prop
  | ⟨name, _, .block _, .arrow, _⟩ => name = none
  | ⟨name, _, .expr e, .arrow, _⟩ =>
    name = none ∧ (e.isObject = true ∨ e.leading.isMark "\x7b" = false)
  | ⟨name, _, .block _, .classic, _⟩ => ∀ id ∈ name, IsName id.name
  | ⟨_, _, .expr _, .classic, _⟩ => False

/-- What can be written of a node of an expression. -/
def Expr.Written : Expr → Prop
  | .number x => Number.ReadsBack x
  | .ident id => IsName id.name
  | .member _ property => isWordText property = true
  | .update _ _ target => target.isTarget = true
  | .assign _ target _ => target.isTarget = true
  | .func f => f.Written
  | _ => True

/-- The shape of trees that are read back from their text. -/
def written : Shape where
  expr := Expr.Written
  name := IsName
  decls ds := ds ≠ [] ∧ ∀ d ∈ ds, d.target.Written ∧ (d.init = none → ∃ id, d.target = .ident id)
  named f := f.Written ∧ f.style = .classic ∧ f.name.isSome = true

def TokenKind.Begins : TokenKind → Prop
  | .number x => Number.ReadsBack x
  | .str _ => True
  | .word w => isWordText w = true ∧
    (isReserved w = false ∨ Parser.Grammar.beginsExpression w = true)
  | .mark m => m ∈ ["(", "[", "\x7b", "!", "-", "+", "++", "--"]
  | .eof => False

theorem TokenKind.begins_mark (h : m ∈ ["(", "[", "\x7b", "!", "-", "+", "++", "--"]) :
    (TokenKind.mark m).Begins := h
theorem TokenKind.Begins.opened (h : k.Begins) (b : Bool) : (k.opened b).Begins := by
  cases b with
  | true => exact mem_cons_self
  | false => exact h

theorem Expr.begins_leading (e : Expr) (he : e.All written) : e.leading.Begins := by
  match e with
  | .number _ => exact he
  | .str _ => trivial
  | .bool b => cases b <;> exact ⟨by decide, .inr (by decide)⟩
  | .null | .undefined | .this => exact ⟨by decide, .inr (by decide)⟩
  | .ident id => exact ⟨he.1, .inl he.2⟩
  | .member base _ => exact (base.begins_leading he.2).opened _
  | .index base _ | .call base _ | .binary _ base _ | .logical _ base _ | .conditional base _ _
  | .assign _ base _ =>
    exact (base.begins_leading he.2.1).opened _
  | .unary op _ => cases op <;> exact begins_mark (by decide)
  | .update op first target =>
    cases first with
    | true => cases op <;> exact begins_mark (by decide)
    | false => exact (target.begins_leading he.2).opened _
  | .array _ | .object _ => exact begins_mark (by decide)
  | .func ⟨_, _, _, style, _⟩ =>
    cases style with
    | arrow => exact begins_mark (by decide)
    | classic => exact ⟨by decide, .inr (by decide)⟩

/-! ## Reading the tokens -/

/-- The characters that end any expression. -/
def closers : List Char :=
  [' ', '\n', ')', ']', '\x7d', ',', ';', ':']

/-- The characters that may follow an expression that needs no parentheses in front
of a field, an element, a call or an update. -/
def accessors : List Char :=
  ['.', '(', '[', '+', '-']

/-- What may follow an expression without becoming part of its last token. -/
def Expr.FollowedBy (e : Expr) (c : Char) : Prop :=
  c ∈ closers ∨ needsParens e = false ∧ c ∈ accessors

theorem Next.mono (h : Next p cs) (hpq : ∀ c, p c → q c) : Next q cs := fun c hc => hpq c (h c hc)

theorem next_cons (h : p c) : Next p (c :: cs) := by
  rintro _ ⟨⟩
  exact h

theorem continuesWord_of_mem (h : c ∈ closers ++ accessors) : continuesWord c = false := by
  have hall : ((closers ++ accessors).all fun c => !continuesWord c) = true := by decide
  simpa using all_eq_true.1 hall c h

theorem endsNumber_of_mem (h : c ∈ closers) : Number.EndsNumber c := by
  have hall :
      (closers.all fun c => !c.isDigit && c != '.' && !Text.isLetter c && c != '_') = true := by
    decide
  simpa [Number.EndsNumber, and_assoc] using all_eq_true.1 hall c h

def finals : List String :=
  ["(", ")", "[", "]", "\x7b", "\x7d", ",", ";", ":", "++", "--", "=>"]

theorem extendsMark_of_mem (hm : m ∈ finals) (c : Char) : extendsMark m c = false := by
  have hall : (finals.all fun m => m != "." && m != "/" && marks.all fun n =>
      !m.toList.isPrefixOf n.toList || n.toList.length == m.toList.length) = true := by
    decide
  have hm := all_eq_true.1 hall m hm
  simp only [Bool.and_eq_true, bne_iff_ne, all_eq_true, Bool.or_eq_true, Bool.not_eq_true',
    beq_iff_eq] at hm
  simp only [extendsMark, Bool.or_eq_false_iff, any_eq_false, beq_false_of_ne hm.1.1,
    beq_false_of_ne hm.1.2, Bool.false_and, and_true]
  intro n hn hprefix
  rw [List.isPrefixOf_iff_prefix] at hprefix
  have hlength := hprefix.length_le
  rcases hm.2 n hn with h | h
  · rw [List.isPrefixOf_iff_prefix.2 ((prefix_append _ _).trans hprefix)] at h
    cases h
  · simp at hlength
    omega

theorem extendsMark_blank (hm : m ∈ marks) (hc : c ∈ [' ', '\n']) : extendsMark m c = false := by
  have hall : (marks.all fun m => [' ', '\n'].all fun c => !extendsMark m c) = true := by
    decide
  simpa using all_eq_true.1 (all_eq_true.1 hall m hm) c hc

theorem legible_final (hm : m ∈ finals) (rest : List Char) : (TokenKind.mark m).Legible rest := by
  have hall : (finals.all marks.contains) = true := by decide
  refine legible_mark (contains_iff_mem.1 (all_eq_true.1 hall m hm)) ?_
  exact fun c _ => extendsMark_of_mem hm c

theorem legible_before_blank (hm : m ∈ marks) (hc : c ∈ [' ', '\n']) (rest : List Char) :
    (TokenKind.mark m).Legible (c :: rest) :=
  legible_mark hm (next_cons (extendsMark_blank hm hc))

namespace Lexeme

/-- Tokens that the lexer reads wherever an expression may end after them. -/
def Stands (ls : List Char → List Lexeme) : Prop :=
  ∀ lead rest, IsBlank lead → Next (· ∈ closers) rest → Legible (ls lead) rest

theorem isBlank_nil : IsBlank [] := fun _ h => by cases h

theorem isBlank_space : IsBlank [' '] := forall_mem_singleton.2 (by decide)

theorem isBlank_newline (depth : Nat) : IsBlank (newline depth) := by
  refine forall_mem_cons.2 ⟨by decide, fun c hc => ?_⟩
  rw [eq_of_mem_replicate hc]
  decide

theorem legible_mark_cons (hm : m ∈ finals) (hlead : IsBlank lead) (h : Legible ls rest) :
    Legible (⟨lead, .mark m⟩ :: ls) rest :=
  ⟨hlead, legible_final hm _, h⟩

theorem legible_word_cons (hw : isWordText w = true) (hlead : IsBlank lead)
    (hnext : Next (· ∈ closers ++ accessors) (spell ls ++ rest)) (h : Legible ls rest) :
    Legible (⟨lead, .word w⟩ :: ls) rest :=
  ⟨hlead, legible_word hw (hnext.mono fun _ => continuesWord_of_mem), h⟩

theorem stands_word (hw : isWordText w = true) : Stands (word w) := by
  intro lead rest hlead hrest
  exact legible_word_cons hw hlead (hrest.mono fun _ => mem_append_left _) trivial

theorem legible_parensIf {ls : List Char → List Lexeme} (hlead : IsBlank lead)
    (hparens : b = true → Legible (ls []) (')' :: rest))
    (hplain : b = false → Legible (ls lead) rest) : Legible (Lexeme.parensIf b ls lead) rest := by
    cases b with | false => exact hplain rfl | true =>
    refine legible_mark_cons (by decide) hlead (legible_append.2 ⟨hparens rfl, ?_⟩)
    exact legible_mark_cons (by decide) isBlank_nil trivial
theorem legible_separated (h : ∀ item ∈ items, Stands item) : Stands (separated items) := by
  intro lead rest hlead hrest
  induction items generalizing lead with
  | nil => exact trivial
  | cons item items ih =>
    obtain ⟨hitem, hitems⟩ := forall_mem_cons.1 h
    cases items with
    | nil => exact hitem lead rest hlead hrest
    | cons item' items =>
      refine legible_append.2 ⟨hitem lead _ hlead (next_cons (by decide)), ?_⟩
      exact legible_mark_cons (by decide) isBlank_nil (ih hitems [' '] isBlank_space)

theorem legible_params (h : ∀ id ∈ ids, IsName id.name) (rest : List Char) :
    Legible (params ids) rest := by
  have hitems : ∀ item ∈ ids.map fun id => word id.name, Stands item := by
    rintro _ hitem
    obtain ⟨id, hid, rfl⟩ := mem_map.1 hitem
    exact stands_word (h id hid).1
  refine legible_append.2 ⟨legible_separated hitems _ _ isBlank_nil (next_cons (by decide)), ?_⟩
  exact legible_mark_cons (by decide) isBlank_nil trivial

theorem legible_head (hids : ∀ id ∈ ids, IsName id.name) (hname : ∀ id ∈ name, IsName id.name)
    (hlead : IsBlank lead) :
    Legible (head ids style name lead) (' ' :: rest) := by
  cases style with
  | arrow =>
    refine legible_mark_cons (by decide) hlead (legible_append.2 ⟨legible_params hids _, ?_⟩)
    exact legible_mark_cons (by decide) isBlank_space trivial
  | classic =>
    cases name with
    | none =>
      refine legible_word_cons (by decide) hlead (next_cons (by decide)) ?_
      exact legible_mark_cons (by decide) isBlank_space (legible_params hids _)
    | some id =>
      refine legible_word_cons (by decide) hlead (next_cons (by decide)) ?_
      refine legible_word_cons (hname id rfl).1 isBlank_space (next_cons (by decide)) ?_
      exact legible_mark_cons (by decide) isBlank_nil (legible_params hids _)

end Lexeme

theorem TokenKind.Begins.spelling (h : k.Begins) : ∃ c cs, k.spelling = c :: cs ∧ c ≠ '=' := by
  cases k with
  | number x =>
    obtain ⟨d, tail, htext, hd, -⟩ := (show Number.ReadsBack x from h).numeral.chars
    refine ⟨d, tail, htext, ?_⟩
    rintro rfl
    cases hd
  | str s => exact ⟨'"', _, Json.toList_literal s, by decide⟩
  | word w =>
    obtain ⟨hw, -⟩ := h
    unfold isWordText at hw
    cases hcs : w.toList with
    | nil =>
      rw [hcs] at hw
      cases hw
    | cons c cs =>
      rw [hcs] at hw
      refine ⟨c, cs, hcs, ?_⟩
      rintro rfl
      cases (Bool.and_eq_true_iff.1 hw).1
  | mark m =>
    have h : m ∈ ["(", "[", "\x7b", "!", "-", "+", "++", "--"] := h
    simp only [mem_cons, not_mem_nil, or_false] at h
    rcases h with rfl | rfl | rfl | rfl | rfl | rfl | rfl | rfl <;> exact ⟨_, _, rfl, by decide⟩
  | eof => exact h.elim

theorem Expr.toList_text (he : e.All written) :
    ∃ c cs, (e.text depth).toList = c :: cs ∧ c ≠ '=' := by
  obtain ⟨tail, htail⟩ := e.head_lexemes depth []
  obtain ⟨c, cs, hspelling, hc⟩ := (e.begins_leading he).spelling
  have htext := e.make_lexemes depth []
  rw [htail, spell_cons, hspelling] at htext
  exact ⟨c, cs ++ spell tail, htext.symm, hc⟩

theorem Expr.toList_parensIf (he : e.All written) (b : Bool) :
    ∃ c cs, (parensIf b (e.text depth)).toList = c :: cs ∧ c ≠ '=' := by
  cases b with
  | false => exact Expr.toList_text he
  | true => exact ⟨'(', _, by simp [Printer.parensIf]; rfl, by decide⟩

/-- An operator in front of its operand is read: the operand begins neither with an
equals sign nor with a sign that would become part of the operator. -/
theorem UnaryOp.legible_symbol {op : UnaryOp} {inner : String}
    (hinner : ∃ c cs, inner.toList = c :: cs ∧ c ≠ '=') (rest : List Char) :
    (TokenKind.mark op.symbol).Legible ((if (op == .neg || op == .plus) &&
      (begins inner "-" || begins inner "+") then [' '] else []) ++ inner.toList ++ rest) := by
  have hm : op.symbol ∈ marks := by cases op <;> decide
  obtain ⟨c, cs, hcs, hc⟩ := hinner
  split
  · exact legible_before_blank hm (by decide) _
  · rename_i hsign
    rw [List.nil_append, hcs, cons_append]
    refine legible_mark hm (next_cons ?_)
    simp only [begins, hcs] at hsign
    cases op with
    | not => simp [extendsMark, marks, UnaryOp.symbol, List.isPrefixOf, hc]
    | neg | plus =>
      have hsigns : '-' ≠ c ∧ '+' ≠ c := by simpa using hsign
      simp [extendsMark, marks, UnaryOp.symbol, List.isPrefixOf, hc, hsigns.1.symm, hsigns.2.symm]

theorem Expr.legible_operand
    (h : ∀ lead rest, IsBlank lead → Next e.FollowedBy rest → Legible (e.lexemes depth lead) rest)
    (hlead : IsBlank lead) (hrest : b = false → Next e.FollowedBy rest) :
    Legible (Lexeme.parensIf b (fun l => e.lexemes depth l) lead) rest :=
  legible_parensIf hlead (fun _ => h [] _ isBlank_nil (next_cons (.inl (by decide))))
    fun hb => h lead rest hlead (hrest hb)

/-- The tokens of an arrow function, whatever its value begins with. -/
theorem Func.legible_arrow {ids : List Ident} {pos : Position} (hids : ∀ id ∈ ids, IsName id.name)
    (h : ∀ lead rest, IsBlank lead → Next e.FollowedBy rest → Legible (e.lexemes depth lead) rest)
    (hlead : IsBlank lead) (hrest : Next (· ∈ closers) rest) :
    Legible (Func.lexemes depth ⟨none, ids, .expr e, .arrow, pos⟩ lead) rest := by
  obtain ⟨tail, hspace⟩ := head_parensIf (e.head_lexemes depth) [' ']
  have hname : ∀ id ∈ (none : Option Ident), IsName id.name := fun _ h => by cases h
  refine legible_append.2 ⟨?_,
    Expr.legible_operand h isBlank_space fun _ => hrest.mono fun _ => .inl⟩
  rw [hspace]
  exact legible_head hids hname hlead

theorem BinaryOp.symbol_mem (op : BinaryOp) : op.symbol ∈ marks := by
  cases op <;> decide

theorem LogicalOp.symbol_mem (op : LogicalOp) : op.symbol ∈ marks := by
  cases op <;> decide

theorem AssignOp.symbol_mem (op : AssignOp) : op.symbol ∈ marks := by
  cases op <;> decide

theorem UpdateOp.symbol_mem (op : UpdateOp) : op.symbol ∈ finals := by
  cases op <;> decide

/-- A mark is read in front of a token after a space. -/
theorem Lexeme.legible_spaced (hm : m ∈ marks) (hls : ∃ k tail, ls = ⟨[' '], k⟩ :: tail)
    (h : Legible ls rest) : Legible (spaced m :: ls) rest := by
  obtain ⟨k, tail, rfl⟩ := hls
  exact ⟨isBlank_space, legible_before_blank hm mem_cons_self _, h⟩

theorem Lexeme.spaced_append (h : ∃ k tail, ls = ⟨[' '], k⟩ :: tail) (ls' : List Lexeme) :
    ∃ k tail, ls ++ ls' = ⟨[' '], k⟩ :: tail := by
  obtain ⟨k, tail, rfl⟩ := h
  exact ⟨k, tail ++ ls', rfl⟩

theorem legible_point (hw : isWordText w = true) (rest : List Char) :
    (TokenKind.mark ".").Legible (w.toList ++ rest) := by
  unfold isWordText at hw
  cases hcs : w.toList with
  | nil =>
    rw [hcs] at hw
    cases hw
  | cons c cs =>
    rw [hcs] at hw
    obtain ⟨hdigit, -, -, hpoint, -⟩ := isInner_of_beginsWord (Bool.and_eq_true_iff.1 hw).1
    refine legible_mark (by decide) (next_cons ?_)
    simp [extendsMark, marks, List.isPrefixOf, hpoint, hdigit]

/-- What needs parentheses in front of a field is followed by the end of an
expression only. -/
theorem closers_of_needsParens (he : needsParens e = true) (h : Next e.FollowedBy rest) :
    Next (· ∈ closers) rest := by
  refine h.mono fun c hc => hc.resolve_right ?_
  rintro ⟨hplain, -⟩
  rw [he] at hplain
  cases hplain

/-! ## Patterns -/

namespace Lexeme

theorem stands_places (h : ∀ id, some id ∈ items → IsName id.name) : Stands (places items) := by
  intro lead rest hlead hrest
  induction items generalizing lead with
  | nil => exact trivial
  | cons item items ih =>
    have hitems : ∀ id, some id ∈ items → IsName id.name := fun id hid =>
      h id (mem_cons_of_mem _ hid)
    cases items with
    | nil =>
      cases item with
      | none => exact trivial
      | some id => exact stands_word (h id mem_cons_self).1 lead rest hlead hrest
    | cons item' items =>
      have htail := ih hitems [' '] isBlank_space
      cases item with
      | none => exact legible_mark_cons (by decide) hlead htail
      | some id =>
        exact legible_word_cons (h id mem_cons_self).1 hlead (next_cons (by decide))
          (legible_mark_cons (by decide) isBlank_nil htail)

theorem stands_patternProp {p : String × Ident} (hkey : isWordText p.1 = true)
    (hname : IsName p.2.name) : Stands (patternProp p) := by
  intro lead rest hlead hrest
  unfold patternProp
  split
  · exact stands_word hkey lead rest hlead hrest
  · exact legible_word_cons hkey hlead (next_cons (by decide))
      (legible_mark_cons (by decide) isBlank_nil (stands_word hname.1 _ _ isBlank_space hrest))

theorem stands_pattern {p : Pattern} (hp : p.Written) (hnames : p.All written) :
    Stands (pattern p) := by
  intro lead rest hlead hrest
  cases p with
  | ident id => exact stands_word (hnames id mem_cons_self).1 lead rest hlead hrest
  | object props =>
    have hitems : ∀ item ∈ props.map patternProp, Stands item := by
      intro item hitem
      obtain ⟨p, hmem, rfl⟩ := mem_map.1 hitem
      exact stands_patternProp (hp p hmem) (hnames p.2 (mem_map_of_mem hmem))
    refine legible_mark_cons (by decide) hlead (legible_append.2 ⟨?_, ?_⟩)
    · cases props <;> exact legible_separated hitems _ _ isBlank_space (next_cons (by decide))
    · refine legible_mark_cons (by decide) ?_ trivial
      split
      · exact forall_mem_cons.2 ⟨by decide, isBlank_space⟩
      · exact isBlank_space
  | array items =>
    have hitems : ∀ id, some id ∈ dropEnd items → IsName id.name := by
      intro id hid
      have hmem : some id ∈ items :=
        mem_reverse.1 ((dropWhile_sublist _).mem (mem_reverse.1 hid))
      exact hnames id (mem_filterMap.2 ⟨_, hmem, rfl⟩)
    refine legible_mark_cons (by decide) hlead (legible_append.2 ⟨?_, ?_⟩)
    · exact stands_places hitems _ _ isBlank_nil (next_cons (by decide))
    · exact legible_mark_cons (by decide) isBlank_nil trivial

end Lexeme

/-! ## Trees -/

theorem Stmt.legible_else {s : Stmt} (hbranch : ∀ test c a, s ≠ .branch test c a)
    (hs : ∀ rest, Legible (s.lexemes (depth + 1) true) ('\n' :: rest)) (rest : List Char) :
    Legible (Stmt.elseLexemes depth (some s)) ('\n' :: rest) := by
  have hclose := legible_mark_cons (m := "\x7d") (by decide) (isBlank_newline depth)
    (show Legible [] ('\n' :: rest) from trivial)
  cases s with
  | branch test c a => exact absurd rfl (hbranch test c a)
  | _ =>
    exact legible_mark_cons (by decide) (isBlank_newline depth)
      (legible_word_cons (by decide) isBlank_space (next_cons (by decide))
        (legible_mark_cons (by decide) isBlank_space (legible_append.2 ⟨hs _, hclose⟩)))

theorem Declarator.legible (hne : ds ≠ [])
    (hitems : ∀ item ∈ Declarator.listLexemes depth ds, Stands item) (kind : DeclKind)
    (hlead : IsBlank lead) (hrest : Next (· ∈ closers) rest) :
    Legible (Decl.lexemes depth ⟨kind, ds⟩ lead) rest := by
  cases ds with
  | nil => exact absurd rfl hne
  | cons d ds =>
    refine legible_word_cons (by cases kind <;> decide) hlead ?_
      (legible_separated hitems [' '] rest isBlank_space hrest)
    rw [spell_separated (Declarator.make_listLexemes depth (d :: ds))]
    obtain ⟨target, _ | e, pos⟩ := d <;> exact next_cons (by decide)

mutual

theorem Expr.legible (depth : Nat) (e : Expr) (he : e.All written) (lead rest : List Char)
    (hlead : IsBlank lead) (hrest : Next e.FollowedBy rest) :
    Legible (e.lexemes depth lead) rest := by
  have hwide : Next (· ∈ closers ++ accessors) rest := hrest.mono fun c hc =>
    mem_append.2 (hc.imp_right And.right)
  match e with
  | .number x =>
    refine ⟨hlead, legible_number ?_ he, trivial⟩
    refine hrest.mono fun c hc => ?_
    rcases hc with hc | ⟨hparens, -⟩
    · exact endsNumber_of_mem hc
    · simp [needsParens] at hparens
  | .str s => exact ⟨hlead, legible_str s _, trivial⟩
  | .bool b => cases b <;> exact legible_word_cons (by decide) hlead hwide trivial
  | .null | .undefined | .this => exact legible_word_cons (by decide) hlead hwide trivial
  | .ident id => exact legible_word_cons he.1 hlead hwide trivial
  | .member base property =>
    refine legible_append.2 ⟨?_, isBlank_nil, ?_, legible_word_cons he.1 isBlank_nil hwide trivial⟩
    · refine Expr.legible_operand (base.legible depth he.2) hlead fun hb => ?_
      exact next_cons (.inr ⟨hb, by decide⟩)
    · rw [make_word property []]
      exact legible_point he.1 rest
  | .index base sub =>
    refine legible_append.2 ⟨?_, legible_mark_cons (by decide) isBlank_nil
      (legible_append.2 ⟨?_, legible_mark_cons (by decide) isBlank_nil trivial⟩)⟩
    · refine Expr.legible_operand (base.legible depth he.2.1) hlead fun hb => ?_
      exact next_cons (.inr ⟨hb, by decide⟩)
    · exact sub.legible depth he.2.2 [] _ isBlank_nil (next_cons (.inl (by decide)))
  | .call callee args =>
    have hargs := legible_separated (Expr.listStands depth args he.2.2)
    refine legible_append.2 ⟨?_, legible_mark_cons (by decide) isBlank_nil
      (legible_append.2 ⟨?_, legible_mark_cons (by decide) isBlank_nil trivial⟩)⟩
    · refine Expr.legible_operand (callee.legible depth he.2.1) hlead fun hb => ?_
      exact next_cons (.inr ⟨hb, by decide⟩)
    · exact hargs [] _ isBlank_nil (next_cons (by decide))
  | .unary op arg =>
    have hclosers := closers_of_needsParens rfl hrest
    refine ⟨hlead, ?_, Expr.legible_operand (arg.legible depth he.2) ?_ fun _ =>
      hclosers.mono fun _ => .inl⟩
    · rw [(arg.make_lexemes depth).parensIf]
      exact UnaryOp.legible_symbol (Expr.toList_parensIf he.2 _) rest
    · split
      · exact isBlank_space
      · exact isBlank_nil
  | .update op first target =>
    have hclosers := closers_of_needsParens (by cases first <;> rfl) hrest
    cases first with
    | true =>
      exact legible_mark_cons op.symbol_mem hlead
        (Expr.legible_operand (target.legible depth he.2) isBlank_nil fun _ =>
          hclosers.mono fun _ => .inl)
    | false =>
      refine legible_append.2 ⟨?_, legible_mark_cons op.symbol_mem isBlank_nil trivial⟩
      refine Expr.legible_operand (target.legible depth he.2) hlead fun hb => ?_
      cases op <;> exact next_cons (.inr ⟨hb, by decide⟩)
  | .binary op left right | .logical op left right =>
    have hclosers := closers_of_needsParens (by cases op <;> rfl) hrest
    refine legible_append.2 ⟨?_, legible_spaced op.symbol_mem
      ⟨_, head_parensIf (right.head_lexemes depth) _⟩ ?_⟩
    · exact Expr.legible_operand (left.legible depth he.2.1) hlead fun _ =>
        next_cons (.inl (by decide))
    · exact Expr.legible_operand (right.legible depth he.2.2) isBlank_space fun _ =>
        hclosers.mono fun _ => .inl
  | .conditional test consequent alternate =>
    have hclosers := closers_of_needsParens rfl hrest
    refine legible_append.2 ⟨?_, legible_spaced (by decide)
      (spaced_append ⟨_, consequent.head_lexemes depth _⟩ _) (legible_append.2 ⟨?_,
        legible_spaced (by decide) ⟨_, alternate.head_lexemes depth _⟩ ?_⟩)⟩
    · exact Expr.legible_operand (test.legible depth he.2.1) hlead fun _ =>
        next_cons (.inl (by decide))
    · exact consequent.legible depth he.2.2.1 _ _ isBlank_space (next_cons (.inl (by decide)))
    · exact alternate.legible depth he.2.2.2 _ _ isBlank_space (hclosers.mono fun _ => .inl)
  | .assign op target value =>
    have hclosers := closers_of_needsParens rfl hrest
    refine legible_append.2 ⟨?_, legible_spaced op.symbol_mem ⟨_, value.head_lexemes depth _⟩ ?_⟩
    · exact Expr.legible_operand (target.legible depth he.2.1) hlead fun _ =>
        next_cons (.inl (by decide))
    · exact value.legible depth he.2.2 _ _ isBlank_space (hclosers.mono fun _ => .inl)
  | .array items =>
    have hitems := legible_separated (Expr.listStands depth items he.2)
    refine legible_mark_cons (by decide) hlead
      (legible_append.2 ⟨?_, legible_mark_cons (by decide) isBlank_nil trivial⟩)
    exact hitems [] _ isBlank_nil (next_cons (by decide))
  | .object [] =>
    exact legible_mark_cons (by decide) hlead (legible_mark_cons (by decide) isBlank_nil trivial)
  | .object (p :: props) =>
    have hprops := legible_separated (Expr.propStands depth (p :: props) he.2)
    refine legible_mark_cons (by decide) hlead
      (legible_append.2 ⟨?_, legible_mark_cons (by decide) isBlank_space trivial⟩)
    exact hprops [' '] _ isBlank_space (next_cons (by decide))
  | .func f =>
    have hclosers := closers_of_needsParens (by simp [needsParens]) hrest
    exact f.legible depth he.1 he.2 lead rest hlead hclosers

theorem Expr.listStands (depth : Nat) (es : List Expr) (he : Expr.ListAll written es) :
    ∀ item ∈ Expr.listLexemes depth es, Stands item := by
  match es with
  | [] => exact fun _ h => by cases h
  | e :: rest =>
    refine forall_mem_cons.2 ⟨fun lead rest hlead hrest => ?_, Expr.listStands depth rest he.2⟩
    exact e.legible depth he.1 lead rest hlead (hrest.mono fun _ => .inl)

theorem Expr.propStands (depth : Nat) (props : List (String × Expr))
    (he : Expr.PropAll written props) : ∀ item ∈ Expr.propLexemes depth props, Stands item := by
  match props with
  | [] => exact fun _ h => by cases h
  | (k, e) :: rest =>
    refine forall_mem_cons.2 ⟨fun lead rest hlead hrest => ?_, Expr.propStands depth rest he.2⟩
    have hvalue := e.legible depth he.1 [' '] rest isBlank_space (hrest.mono fun _ => .inl)
    split
    · rename_i hown
      cases e with
      | ident id =>
        have hid : id.name = k := eq_of_beq hown
        exact hid ▸ stands_word he.1.1 lead rest hlead hrest
      | _ => cases hown
    · unfold key
      split
      · rename_i hk
        exact legible_word_cons hk hlead (next_cons (by decide))
          (legible_mark_cons (by decide) isBlank_nil hvalue)
      · exact ⟨hlead, legible_str k _, legible_mark_cons (by decide) isBlank_nil hvalue⟩

theorem Func.legible (depth : Nat) (f : Func) (hwritten : f.Written) (hf : f.All written)
    (lead rest : List Char) (hlead : IsBlank lead) (hrest : Next (· ∈ closers) rest) :
    Legible (f.lexemes depth lead) rest := by
  match f with
  | ⟨name, params, .block stmts, style, _⟩ =>
    have hname : ∀ id ∈ name, IsName id.name := by
      cases style with
      | arrow =>
        cases (show name = none from hwritten)
        exact fun _ h => by cases h
      | classic => exact hwritten
    refine legible_append.2 ⟨legible_head hf.1 hname hlead,
      legible_mark_cons (by decide) isBlank_space ?_⟩
    refine legible_append.2 ⟨Stmt.listLegible (depth + 1) stmts hf.2 _, ?_⟩
    exact legible_mark_cons (by decide) (isBlank_newline depth) trivial
  | ⟨name, params, .expr e, style, _⟩ =>
    cases style with
    | arrow =>
      obtain ⟨rfl, -⟩ := hwritten
      exact Func.legible_arrow hf.1 (e.legible depth hf.2) hlead hrest
    | classic => exact hwritten.elim

theorem Stmt.legible (depth : Nat) (braced : Bool) (s : Stmt) (hs : s.All written)
    (rest : List Char) : Legible (s.lexemes depth braced) ('\n' :: rest) := by
  have hnewline := isBlank_newline depth
  match s with
  | .decl ⟨kind, ds⟩ =>
    refine legible_append.2 ⟨?_, legible_mark_cons (by decide) isBlank_nil trivial⟩
    exact Declarator.legible hs.1.1 (Declarator.listStands depth ds (fun d hd => (hs.1.2 d hd).1)
      hs.2)
      kind hnewline (next_cons (by decide))
  | .expr e =>
    refine legible_append.2 ⟨?_, legible_mark_cons (by decide) isBlank_nil trivial⟩
    exact Expr.legible_operand (e.legible depth hs) hnewline fun _ => next_cons (.inl (by decide))
  | .branch test consequent alternate =>
    refine legible_word_cons (by decide) hnewline (next_cons (by decide))
      (legible_mark_cons (by decide) isBlank_space (legible_append.2 ⟨?_,
        legible_mark_cons (by decide) isBlank_nil (legible_mark_cons (by decide) isBlank_space
          (legible_append.2 ⟨?_, Stmt.elseLegible depth alternate hs.2.2 rest⟩))⟩))
    · exact test.legible depth hs.1 _ _ isBlank_nil (next_cons (.inl (by decide)))
    · rw [← Stmt.make_elseLexemes depth alternate]
      exact consequent.legible (depth + 1) true hs.2.1 _
  | .forLoop init test update body =>
    refine legible_word_cons (by decide) hnewline (next_cons (by decide))
      (legible_mark_cons (by decide) isBlank_space (legible_append.2 ⟨?_,
        legible_mark_cons (by decide) isBlank_nil (legible_append.2 ⟨?_,
          legible_mark_cons (by decide) ?_ (legible_append.2 ⟨?_,
            legible_mark_cons (by decide) ?_ (legible_mark_cons (by decide) isBlank_space
              (legible_append.2 ⟨?_, legible_mark_cons (by decide) hnewline trivial⟩))⟩)⟩)⟩))
    · exact ForInit.optLegible depth init hs.1 _
    · exact Expr.optLegible depth test hs.2.1 _ (by cases test <;> exact next_cons (by decide))
    · cases test <;> first | exact isBlank_nil | exact isBlank_space
    · exact Expr.optLegible depth update hs.2.2.1 _
        (by cases update <;> exact next_cons (by decide))
    · cases update <;> first | exact isBlank_nil | exact isBlank_space
    · exact body.legible (depth + 1) true hs.2.2.2 _
  | .whileLoop test body =>
    refine legible_word_cons (by decide) hnewline (next_cons (by decide))
      (legible_mark_cons (by decide) isBlank_space (legible_append.2 ⟨?_,
        legible_mark_cons (by decide) isBlank_nil (legible_mark_cons (by decide) isBlank_space
          (legible_append.2 ⟨?_, legible_mark_cons (by decide) hnewline trivial⟩))⟩))
    · exact test.legible depth hs.1 _ _ isBlank_nil (next_cons (.inl (by decide)))
    · exact body.legible (depth + 1) true hs.2 _
  | .block stmts =>
    cases braced with
    | true => exact Stmt.listLegible depth stmts hs rest
    | false =>
      refine legible_mark_cons (by decide) hnewline (legible_append.2 ⟨?_, ?_⟩)
      · exact Stmt.listLegible (depth + 1) stmts hs _
      · exact legible_mark_cons (by decide) hnewline trivial
  | .ret none | .breakLoop | .continueLoop =>
    exact legible_word_cons (by decide) hnewline (next_cons (by decide))
      (legible_mark_cons (by decide) isBlank_nil trivial)
  | .ret (some e) =>
    obtain ⟨tail, hspace⟩ := e.head_lexemes depth [' ']
    refine legible_word_cons (by decide) hnewline ?_ (legible_append.2 ⟨?_,
      legible_mark_cons (by decide) isBlank_nil trivial⟩)
    · rw [hspace]
      exact next_cons (by decide)
    · exact e.legible depth hs _ _ isBlank_space (next_cons (.inl (by decide)))
  | .func f => exact f.legible depth hs.1.1 hs.2.2 _ _ hnewline (next_cons (by decide))
  | .empty => exact legible_mark_cons (by decide) hnewline trivial

theorem Expr.optLegible (depth : Nat) (e? : Option Expr) (he : Expr.OptAll written e?)
    (rest : List Char) (hrest : Next (· ∈ closers) rest) :
    Legible (Expr.optLexemes depth e? [' ']) rest := by
  match e? with
  | none => exact trivial
  | some e => exact e.legible depth he _ _ isBlank_space (hrest.mono fun _ => .inl)

theorem ForInit.optLegible (depth : Nat) (init : Option ForInit) (hs : ForInit.OptAll written init)
    (rest : List Char) : Legible (ForInit.optLexemes depth init) (';' :: rest) := by
  match init with
  | none => exact trivial
  | some (.decl ⟨kind, ds⟩) =>
    exact Declarator.legible hs.1.1 (Declarator.listStands depth ds (fun d hd => (hs.1.2 d hd).1)
      hs.2)
      kind isBlank_nil (next_cons (by decide))
  | some (.expr e) => exact e.legible depth hs _ _ isBlank_nil (next_cons (.inl (by decide)))

theorem Stmt.elseLegible (depth : Nat) (alternate : Option Stmt)
    (hs : Stmt.OptAll written alternate) (rest : List Char) :
    Legible (Stmt.elseLexemes depth alternate) ('\n' :: rest) := by
  match alternate with
  | none => exact legible_mark_cons (by decide) (isBlank_newline depth) trivial
  | some (.branch test consequent alternate) =>
    refine legible_mark_cons (by decide) (isBlank_newline depth) (legible_word_cons (by decide)
      isBlank_space (next_cons (by decide)) (legible_word_cons (by decide) isBlank_space
        (next_cons (by decide)) (legible_mark_cons (by decide) isBlank_space (legible_append.2 ⟨?_,
          legible_mark_cons (by decide) isBlank_nil (legible_mark_cons (by decide) isBlank_space
            (legible_append.2 ⟨?_, Stmt.elseLegible depth alternate hs.2.2 rest⟩))⟩))))
    · exact test.legible depth hs.1 _ _ isBlank_nil (next_cons (.inl (by decide)))
    · rw [← Stmt.make_elseLexemes depth alternate]
      exact consequent.legible (depth + 1) true hs.2.1 _
  | some (.decl _) | some (.expr _) | some (.forLoop ..) | some (.whileLoop ..) | some (.block _)
  | some (.ret _) | some .breakLoop | some .continueLoop | some (.func _) | some .empty =>
    refine Stmt.legible_else ?_ (Stmt.legible (depth + 1) true _ hs) rest
    nofun

theorem Stmt.listLegible (depth : Nat) (stmts : List Stmt) (hs : Stmt.ListAll written stmts)
    (rest : List Char) : Legible (Stmt.listLexemes depth stmts) ('\n' :: rest) := by
  match stmts with
  | [] => exact trivial
  | s :: stmts =>
    refine legible_append.2 ⟨?_, Stmt.listLegible depth stmts hs.2 rest⟩
    rw [← Stmt.make_listLexemes depth stmts]
    exact s.legible depth false hs.1 _

theorem Declarator.listStands (depth : Nat) (ds : List Declarator)
    (hwritten : ∀ d ∈ ds, d.target.Written) (hd : Declarator.ListAll written ds) :
    ∀ item ∈ Declarator.listLexemes depth ds, Stands item := by
  match ds with
  | [] => exact fun _ h => by cases h
  | ⟨target, none, pos⟩ :: ds =>
    obtain ⟨htarget, hds⟩ := forall_mem_cons.1 hwritten
    exact forall_mem_cons.2 ⟨stands_pattern htarget hd.1, Declarator.listStands depth ds hds hd.2.2⟩
  | ⟨target, some e, pos⟩ :: ds =>
    obtain ⟨htarget, hds⟩ := forall_mem_cons.1 hwritten
    refine forall_mem_cons.2 ⟨fun lead rest hlead hrest => ?_,
      Declarator.listStands depth ds hds hd.2.2⟩
    refine legible_append.2 ⟨stands_pattern htarget hd.1 _ _ hlead (next_cons (by decide)),
      legible_spaced (by decide) ⟨_, e.head_lexemes depth _⟩ ?_⟩
    exact e.legible depth hd.2.1 _ _ isBlank_space (hrest.mono fun _ => .inl)

end

end BarScript

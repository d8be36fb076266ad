import Mathlib
import BarScript.Proofs.Gives
import BarScript.Script.Printer

/-!
# Reading the tokens of a spelled text

A text can be put together from tokens: each is spelled in one way, with blanks
in front of it. The lexer takes such a text apart again, as long as no token runs
into what follows it. Whether it does depends on the next character only, so this
is what has to be known of a text: of each token, that the next character does not
continue it.
-/

namespace BarScript

open List

variable {m : String} {p : Char → Bool} {c : Char} {x : Float} {ds cs : List Char} {newline : Bool}
  {ls : List Lexeme}

/-! ## Lexemes -/

def TokenKind.spelling : TokenKind → List Char
  | .number x => (Number.Layout.script.text x).toList
  | .str s => (Json.literal s).toList
  | .word w => w.toList
  | .mark m => m.toList
  | .eof => []

/-- A token to be spelled, and the blanks in front of it. -/
structure Lexeme where
  lead : List Char
  kind : TokenKind

/-- What the parser knows of a token besides its position. -/
def Token.sign (t : Token) : TokenKind × Bool :=
  (t.kind, t.newlineBefore)

namespace Lexeme

/-- The text of a token, with the blanks in front of it. -/
def chars (l : Lexeme) : List Char :=
  l.lead ++ l.kind.spelling

/-- What the parser will know of the token. -/
def sign (l : Lexeme) : TokenKind × Bool :=
  (l.kind, l.lead.contains '\n')

def spell (ls : List Lexeme) : List Char :=
  ls.flatMap chars

@[simp] theorem spell_nil : spell [] = [] := rfl

@[simp] theorem spell_cons (l : Lexeme) (ls : List Lexeme) :
    spell (l :: ls) = l.lead ++ (l.kind.spelling ++ spell ls) := by
  simp [spell, chars]

@[simp] theorem spell_append (ls ls' : List Lexeme) : spell (ls ++ ls') = spell ls ++ spell ls' :=
  flatMap_append

end Lexeme

/-- The lexer reads a token in front of a text. -/
structure TokenKind.Legible (k : TokenKind) (rest : List Char) : Prop where
  /-- No blank or comment begins where the token does. -/
  skip : ∀ newline pos, skipFrom newline .blanks pos (k.spelling ++ rest) =
    .ok (newline, ⟨k.spelling ++ rest, pos⟩)
  scan : ∃ c cs, k.spelling = c :: cs ∧
    ∀ pos, ∃ pos', scanToken c ⟨k.spelling ++ rest, pos⟩ = .ok (k, ⟨rest, pos'⟩)

def IsBlank (cs : List Char) : Prop :=
  ∀ c ∈ cs, Text.isBlank c = true

/-- The lexer reads every one of some tokens in front of a text. -/
def Lexeme.Legible : List Lexeme → List Char → Prop
  | [], _ => True
  | l :: ls, rest =>
    IsBlank l.lead ∧ l.kind.Legible (Lexeme.spell ls ++ rest) ∧ Lexeme.Legible ls rest

theorem Lexeme.legible_append :
    Legible (ls ++ ls') rest ↔ Legible ls (spell ls' ++ rest) ∧ Legible ls' rest := by
  induction ls with
  | nil => simp [Legible]
  | cons l ls ih => simp [Legible, ih, and_assoc]

/-! ## Skipping blanks -/

theorem Text.isBlank_slash : Text.isBlank '/' = false := by decide

/-- A character that begins no comment is skipped if it is blank. -/
theorem skipFrom_cons (hc : c ≠ '/' ∨ ∀ d ∈ cs.head?, d ≠ '/' ∧ d ≠ '*') :
    skipFrom newline .blanks pos (c :: cs) = if c == '\n' then skipFrom true .blanks (pos.next c) cs
      else if Text.isBlank c then skipFrom newline .blanks (pos.next c) cs
      else .ok (newline, ⟨c :: cs, pos⟩) := by
  rw [skipFrom.eq_def]
  split <;> simp_all

theorem skipFrom_blank (hc : Text.isBlank c = true) : skipFrom newline .blanks pos (c :: cs) =
      skipFrom (newline || c == '\n') .blanks (pos.next c) cs := by
  have hslash : c ≠ '/' := by
    rintro rfl
    exact absurd hc (by rw [Text.isBlank_slash]; exact nofun)
  rw [skipFrom_cons (.inl hslash)]
  by_cases hn : c = '\n'
  · simp [hn]
  · simp [beq_false_of_ne hn, hc]

/-- Blanks are skipped, and line ends among them are noticed. -/
theorem skipFrom_append (newline : Bool) (pos : Position) (cs : List Char) (hlead : IsBlank lead) :
    ∃ pos', skipFrom newline .blanks pos (lead ++ cs) =
      skipFrom (newline || lead.contains '\n') .blanks pos' cs := by
  induction lead generalizing newline pos with
  | nil => exact ⟨pos, by simp⟩
  | cons c lead ih =>
    obtain ⟨hc, hrest⟩ := forall_mem_cons.1 hlead
    obtain ⟨pos', h⟩ := ih (newline || c == '\n') (pos.next c) hrest
    refine ⟨pos', ?_⟩
    rw [cons_append, skipFrom_blank hc, h, contains_cons, Bool.or_assoc, Bool.beq_comm]

/-! ## Tokens in a row -/

/-- **The lexer takes a spelled text apart.** -/
theorem tokensFrom_spell (h : Lexeme.Legible ls rest) (hblank : IsBlank rest)
    (hfuel : ls.length < fuel) (pos : Position) :
    ∃ ts end?, tokensFrom fuel ⟨Lexeme.spell ls ++ rest, pos⟩ = .ok (ts ++ [⟨.eof, end?, true⟩]) ∧
      ts.map Token.sign = ls.map Lexeme.sign := by
  induction ls generalizing fuel pos with
  | nil =>
    obtain ⟨fuel, rfl⟩ := Nat.exists_eq_add_one.2 hfuel
    obtain ⟨pos', hskip⟩ := skipFrom_append false pos [] hblank
    refine ⟨[], pos', ?_, rfl⟩
    rw [List.append_nil, skipFrom] at hskip
    rw [tokensFrom, Reader.skip, Lexeme.spell_nil, List.nil_append, hskip]
    rfl
  | cons l ls ih =>
    obtain ⟨fuel, rfl⟩ := Nat.exists_eq_add_one.2 (Nat.zero_lt_of_lt hfuel)
    obtain ⟨hlead, hlegible, hrest⟩ := h
    obtain ⟨pos₁, hskip⟩ := skipFrom_append false pos
      (l.kind.spelling ++ (Lexeme.spell ls ++ rest)) hlead
    obtain ⟨c, cs, hspelling, hscan⟩ := hlegible.scan
    obtain ⟨pos₂, hscan⟩ := hscan pos₁
    obtain ⟨ts, end?, htokens, hsigns⟩ := ih hrest (by simpa using hfuel) pos₂
    refine ⟨⟨l.kind, pos₁, l.lead.contains '\n'⟩ :: ts, end?, ?_, ?_⟩
    · have hchars : Lexeme.spell (l :: ls) ++ rest =
          l.lead ++ (l.kind.spelling ++ (Lexeme.spell ls ++ rest)) := by simp
      rw [tokensFrom, Reader.skip, hchars, hskip, hlegible.skip]
      rw [hspelling] at hscan ⊢
      show (scanToken c _ >>= _) = _
      rw [hscan]
      show (tokensFrom fuel _ >>= _) = _
      rw [htokens]
      rfl
    · rw [map_cons, map_cons, hsigns]
      rfl

theorem Lexeme.length_le_spell (h : Legible ls rest) : ls.length ≤ (spell ls).length := by
  induction ls with
  | nil => exact Nat.le_refl 0
  | cons l ls ih =>
    obtain ⟨c, cs, hspelling, -⟩ := h.2.1.scan
    have := ih h.2.2
    simp only [spell_cons, hspelling, length_append, length_cons]
    omega

theorem tokenize_spell (h : Lexeme.Legible ls rest) (hblank : IsBlank rest)
    {s : String} (hs : s.toList = Lexeme.spell ls ++ rest) :
    ∃ ts end?, tokenize s = .ok (ts ++ [⟨.eof, end?, true⟩]) ∧
      ts.map Token.sign = ls.map Lexeme.sign := by
  unfold tokenize Reader.ofString
  rw [hs]
  refine tokensFrom_spell h hblank ?_ _
  have hlength : s.length = (Lexeme.spell ls ++ rest).length := by rw [← hs, String.length_toList]
  have := Lexeme.length_le_spell h
  rw [length_append] at hlength
  omega

/-! ## Characters -/

/-- Classes without a common range have no common character. -/
theorem CharClass.contains_eq_false {k k' : CharClass}
    (h : (k'.ranges.all fun r => k.ranges.all fun q =>
      decide (r.2 < q.1) || decide (q.2 < r.1)) = true)
    (hc : k.contains c = true) : k'.contains c = false := by
  by_contra hc'
  rw [Bool.not_eq_false] at hc'
  obtain ⟨q, hq, hcq⟩ := any_eq_true.1 hc
  obtain ⟨r, hr, hcr⟩ := any_eq_true.1 hc'
  have := all_eq_true.1 (all_eq_true.1 h r hr) q hq
  simp only [Bool.and_eq_true, Bool.or_eq_true, decide_eq_true_eq] at hcq hcr this
  omega

theorem Char.ne_of_128_le {d : Char} (hc : 128 ≤ c.toNat) (hd : d.toNat < 128) : c ≠ d := by
  rintro rfl
  omega

theorem Char.isDigit_of_128_le (hc : 128 ≤ c.toNat) : c.isDigit = false := by
  by_contra h
  obtain ⟨-, hle⟩ := Char.isDigit_iff_toNat.1 (Bool.not_eq_false _ ▸ h)
  have hnine : '9'.toNat = 57 := rfl
  omega

theorem Text.isBlank_of_isDigit (h : c.isDigit = true) : Text.isBlank c = false := by
  obtain ⟨hzero, hnine⟩ := Char.isDigit_iff_toNat.1 h
  have hcodes : '0'.toNat = 48 ∧ '9'.toNat = 57 := ⟨rfl, rfl⟩
  rw [Text.isBlank, if_pos (by omega)]
  simp only [Bool.or_eq_false_iff, Bool.and_eq_false_iff, beq_eq_false_iff_ne,
    decide_eq_false_iff_not]
  omega

/-- A character at which no number, string, blank or comment begins. -/
abbrev IsInner (c : Char) : Prop :=
  c.isDigit = false ∧ Text.isBlank c = false ∧ c ≠ '/' ∧ c ≠ '.' ∧ c ≠ '"' ∧ c ≠ '\''

theorem Text.isInner_of_isLetter (h : Text.isLetter c = true) : IsInner c := by
  by_cases hc : c.toNat < 128
  · have hascii : ∀ n < 128, Text.isLetter (Char.ofNat n) = true → IsInner (Char.ofNat n) := by
      decide
    have hchar := hascii c.toNat hc
    rw [Char.ofNat_toNat] at hchar
    exact hchar h
  · have hle : 128 ≤ c.toNat := Nat.le_of_not_lt hc
    rw [Text.isLetter, if_neg hc] at h
    refine ⟨Char.isDigit_of_128_le hle, ?_, ?_⟩
    · rw [Text.isBlank, if_neg hc]
      exact CharClass.contains_eq_false (by decide +kernel) h
    · exact ⟨Char.ne_of_128_le hle (by decide), Char.ne_of_128_le hle (by decide),
        Char.ne_of_128_le hle (by decide), Char.ne_of_128_le hle (by decide)⟩

theorem isInner_of_beginsWord (h : beginsWord c = true) : IsInner c := by
  simp only [beginsWord, Bool.or_eq_true, beq_iff_eq] at h
  rcases h with (h | rfl) | rfl
  · exact Text.isInner_of_isLetter h
  · decide
  · decide

/-- Nothing follows, or a character that has a property. -/
def Next (p : Char → Prop) (rest : List Char) : Prop :=
  ∀ c ∈ rest.head?, p c

theorem takeWhile_append_of_next {rest : List Char} (hcs : ∀ c ∈ cs, p c = true)
    (hrest : Next (fun c => p c = false) rest) : (cs ++ rest).takeWhile p = cs := by
  rw [takeWhile_append_of_pos hcs]
  cases rest with
  | nil => simp
  | cons c rest => simp [hrest c rfl]

theorem dropWhile_append_of_next {rest : List Char} (hcs : ∀ c ∈ cs, p c = true)
    (hrest : Next (fun c => p c = false) rest) : (cs ++ rest).dropWhile p = rest := by
  rw [dropWhile_append_of_pos hcs]
  cases rest with
  | nil => simp
  | cons c rest => simp [hrest c rfl]

theorem skipFrom_inner {pos : Position} (hc : Text.isBlank c = false)
    (hslash : c ≠ '/' ∨ ∀ d ∈ cs.head?, d ≠ '/' ∧ d ≠ '*') :
    skipFrom newline .blanks pos (c :: cs) = .ok (newline, ⟨c :: cs, pos⟩) := by
  have hnewline : c ≠ '\n' := by
    rintro rfl
    exact absurd hc (by decide)
  simp [skipFrom_cons hslash, beq_false_of_ne hnewline, hc]

/-! ## Words -/

theorem continuesWord_of_beginsWord (h : beginsWord c = true) : continuesWord c = true := by
  simp only [beginsWord, Bool.or_eq_true] at h
  simp only [continuesWord, Bool.or_eq_true]
  tauto

theorem TokenKind.legible_word (hw : Printer.isWordText w = true)
    (hrest : Next (fun c => continuesWord c = false) rest) : (TokenKind.word w).Legible rest := by
  unfold Printer.isWordText at hw
  cases hcs : w.toList with
  | nil =>
    rw [hcs] at hw
    cases hw
  | cons c cs =>
    rw [hcs] at hw
    obtain ⟨hc, hall⟩ := Bool.and_eq_true_iff.1 hw
    obtain ⟨hdigit, hblank, hslash, hpoint, hdouble, hsingle⟩ := isInner_of_beginsWord hc
    have hspelling : (TokenKind.word w).spelling = c :: cs := hcs
    have hall : ∀ d ∈ c :: cs, continuesWord d = true :=
      forall_mem_cons.2 ⟨continuesWord_of_beginsWord hc, all_eq_true.1 hall⟩
    refine ⟨fun newline pos => ?_, c, cs, hcs, fun pos => ?_⟩
    · rw [hspelling, cons_append, skipFrom_inner hblank (.inl hslash)]
    · refine ⟨pos.past (c :: cs), ?_⟩
      rw [hspelling]
      unfold scanToken scanWord Reader.span
      simp only [hdigit, beq_false_of_ne hpoint, beq_false_of_ne hdouble, beq_false_of_ne hsingle,
        hc, Bool.false_and, Bool.or_self, Bool.false_eq_true, if_false, if_true,
        takeWhile_append_of_next hall hrest, dropWhile_append_of_next hall hrest]
      rw [← hcs, String.ofList_toList]

/-! ## Marks -/

/-- Whether a character makes a mark longer, or makes it another token or a
comment. -/
def extendsMark (m : String) (c : Char) : Bool :=
  marks.any (fun n => (m.toList ++ [c]).isPrefixOf n.toList) || (m == "." && c.isDigit) ||
    (m == "/" && (c == '/' || c == '*'))

/-- The first of the marks that a mark begins with is the mark itself. -/
theorem find?_marks (hm : m ∈ marks) :
    marks.find? (fun n => n.toList.isPrefixOf m.toList) = some m := by
  revert m
  decide

/-- A mark begins like nothing else; only a point could begin a number and only
a slash a comment. -/
theorem marks_spelling (hm : m ∈ marks) : ∃ c cs, m.toList = c :: cs ∧
    c.isDigit = false ∧ Text.isBlank c = false ∧ beginsWord c = false ∧ c ≠ '"' ∧ c ≠ '\'' ∧
    (c = '.' → cs = [] ∧ m = "." ∨ cs.head? = some '.') ∧
    (c = '/' → cs = [] ∧ m = "/" ∨ cs.head? = some '=') := by
  have hbegin : (marks.all fun m => m.toList.head?.any fun c =>
      !c.isDigit && !Text.isBlank c && !beginsWord c && c != '"' && c != '\'') = true := by
    decide
  have htail : (marks.all fun m => m.toList.head?.all fun c =>
      (c != '.' || (m.toList.tail.isEmpty && m == "." || m.toList.tail.head? == some '.')) &&
      (c != '/' || (m.toList.tail.isEmpty && m == "/" || m.toList.tail.head? == some '='))) =
        true := by
    decide
  have hbegin := all_eq_true.1 hbegin m hm
  have htail := all_eq_true.1 htail m hm
  cases hcs : m.toList with
  | nil =>
    rw [hcs] at hbegin
    cases hbegin
  | cons c cs =>
    simp only [hcs, head?_cons, Option.any_some, Option.all_some, tail_cons,
      Bool.and_eq_true, Bool.or_eq_true, Bool.not_eq_true', bne_iff_ne, beq_iff_eq,
      List.isEmpty_iff] at hbegin htail
    grind

/-- A mark that begins a text is the longest one that does, if the next character
does not extend it. -/
theorem isPrefixOf_mark_append (hn : n ∈ marks)
    (hrest : Next (fun c => extendsMark m c = false) rest) :
    n.toList.isPrefixOf (m.toList ++ rest) = n.toList.isPrefixOf m.toList := by
  rw [Bool.eq_iff_iff, List.isPrefixOf_iff_prefix, List.isPrefixOf_iff_prefix]
  refine ⟨fun h => ?_, fun h => h.trans (prefix_append _ _)⟩
  rcases prefix_or_prefix_of_prefix h (prefix_append m.toList rest) with h' | ⟨tail, htail⟩
  · exact h'
  · cases tail with
    | nil =>
      rw [List.append_nil] at htail
      exact htail ▸ prefix_refl _
    | cons c tail =>
      obtain ⟨more, hmore⟩ := h
      rw [← htail, append_assoc] at hmore
      have hc : rest = c :: (tail ++ more) := (append_cancel_left hmore).symm
      have hext : extendsMark m c = false := hrest c (by rw [hc]; rfl)
      simp only [extendsMark, Bool.or_eq_false_iff, any_eq_false] at hext
      refine absurd ?_ (hext.1.1 n hn)
      rw [List.isPrefixOf_iff_prefix, ← htail]
      exact ⟨tail, by simp⟩

theorem TokenKind.legible_mark (hm : m ∈ marks)
    (hrest : Next (fun c => extendsMark m c = false) rest) : (TokenKind.mark m).Legible rest := by
  obtain ⟨c, cs, hcs, hdigit, hblank, hword, hdouble, hsingle, hpoint, hslash⟩ := marks_spelling hm
  have hspelling : (TokenKind.mark m).spelling = c :: cs := hcs
  refine ⟨fun newline pos => ?_, c, cs, hcs, fun pos => ⟨pos.past (c :: cs), ?_⟩⟩
  · rw [hspelling, cons_append]
    refine skipFrom_inner hblank ?_
    by_cases hc : c = '/'
    · refine .inr fun d hd => ?_
      rcases hslash hc with ⟨rfl, rfl⟩ | hequals
      · have := hrest d hd
        simp [extendsMark] at this
        exact this.2
      · rw [head?_append, hequals] at hd
        cases hd
        decide
    · exact .inl hc
  · have hnumber :
        (c == '.' && (⟨c :: cs ++ rest, pos⟩ : Reader).peekIs 1 Char.isDigit) = false := by
      by_cases hc : c = '.'
      · rcases hpoint hc with ⟨rfl, rfl⟩ | hpoint
        · cases rest with
          | nil => simp [Reader.peekIs, Reader.peek?]
          | cons d rest =>
            have := hrest d rfl
            simp [extendsMark] at this
            simp [Reader.peekIs, Reader.peek?, this.2]
        · cases cs with
          | nil => cases hpoint
          | cons d cs =>
            cases hpoint
            simp [Reader.peekIs, Reader.peek?]
      · simp [hc]
    have hfind : marks.find? (fun n => n.toList.isPrefixOf (c :: cs ++ rest)) = some m := by
      rw [← hcs, ← find?_marks hm]
      exact find?_congr fun n hn => isPrefixOf_mark_append hn hrest
    rw [hspelling]
    unfold scanToken scanMark
    simp only [hdigit, hnumber, hword, beq_false_of_ne hdouble, beq_false_of_ne hsingle,
      Bool.or_self, Bool.false_eq_true, if_false, hfind, Reader.drop]
    have hlength : m.length = (c :: cs).length := by rw [← hcs, String.length_toList]
    rw [hlength, take_left, drop_left]

/-! ## Strings -/

/-- The text between the quotes of a string literal. -/
def escaped (cs : List Char) : List Char :=
  cs.flatMap fun c => (Json.escapeChar c).toList

theorem Json.toList_literal (s : String) :
    (Json.literal s).toList = '"' :: (escaped s.toList ++ ['"']) := by
  have hfold : ∀ (cs : List Char) (t : String),
      (cs.foldl (fun t c => t ++ Json.escapeChar c) t).toList = t.toList ++ escaped cs := by
    intro cs
    induction cs with
    | nil => simp [escaped]
    | cons c cs ih =>
      intro t
      rw [foldl_cons, ih]
      simp [escaped]
  simp [Json.literal, hfold]

section Strings

variable {start pos : Position} {fuel : Nat} {acc rest : List Char}

theorem scanStringFrom_letter {text : String} (e : Char) (htext : text.toList = ['\\', e])
    (he : e ≠ 'u') (hc : escapedChar e = c) :
    ∃ pos', scanStringFrom '"' start (fuel + 1) acc ⟨text.toList ++ rest, pos⟩ =
      scanStringFrom '"' start fuel (c :: acc) ⟨rest, pos'⟩ := by
  refine ⟨(pos.next '\\').next e, ?_⟩
  rw [htext, cons_append, cons_append, List.nil_append, scanStringFrom]
  simp only [Reader.next, Char.reduceBEq, Bool.false_eq_true, if_false, if_true]
  rw [hc]

theorem scanStringFrom_plain (hquote : c ≠ '"') (hline : c ≠ '\n') (hslash : c ≠ '\\') :
    scanStringFrom '"' start (fuel + 1) acc ⟨c :: rest, pos⟩ =
      scanStringFrom '"' start fuel (c :: acc) ⟨rest, pos.next c⟩ := by
  rw [scanStringFrom]
  simp only [Reader.next, beq_false_of_ne hquote, beq_false_of_ne hline, beq_false_of_ne hslash,
    Bool.false_eq_true, if_false]

theorem Json.hexByte_eq (hn : n < 32) : ∃ a b, (Json.hexByte n).toList = [a, b] ∧
    isHexDigit a = true ∧ isHexDigit b = true ∧ ofHexDigits ['0', '0', a, b] = n := by
  have hall : ∀ n < 32, (Json.hexByte n).toList.length = 2 ∧
      (Json.hexByte n).toList.all isHexDigit = true ∧
      ofHexDigits ('0' :: '0' :: (Json.hexByte n).toList) = n := by
    decide
  obtain ⟨hlength, hdigits, hvalue⟩ := hall n hn
  obtain ⟨a, b, hab⟩ := length_eq_two.1 hlength
  rw [hab] at hdigits hvalue
  simp only [all_cons, all_nil, Bool.and_true, Bool.and_eq_true] at hdigits
  exact ⟨a, b, hab, hdigits.1, hdigits.2, hvalue⟩

theorem scanStringFrom_number (hc : c.toNat < 32) : ∃ pos', scanStringFrom '"' start (fuel + 1) acc
        ⟨("\\u00" ++ Json.hexByte c.toNat).toList ++ rest, pos⟩ =
      scanStringFrom '"' start fuel (c :: acc) ⟨rest, pos'⟩ := by
  obtain ⟨a, b, hab, ha, hb, hvalue⟩ := Json.hexByte_eq hc
  have htext : ("\\u00" ++ Json.hexByte c.toNat).toList ++ rest =
      '\\' :: 'u' :: '0' :: '0' :: a :: b :: rest := by
    simp [hab]
  have hzero : isHexDigit '0' = true := by decide
  have hescape : ∀ start pos, scanEscape start ⟨'0' :: '0' :: a :: b :: rest, pos⟩ =
      .ok (c, ⟨rest, pos.past ['0', '0', a, b]⟩) := by
    intro start pos
    have hunit : scanUnit start ⟨'0' :: '0' :: a :: b :: rest, pos⟩ =
        .ok (c.toNat, ⟨rest, pos.past ['0', '0', a, b]⟩) := by
      simp [scanUnit, hzero, ha, hb, hvalue, Reader.drop]
    have hvalid : c.toNat.isValidChar := .inl (by omega)
    have hlow : ¬ 0xd800 ≤ c.toNat := by omega
    unfold scanEscape
    rw [hunit]
    show (if _ then _ else _) = _
    simp only [hlow, decide_false, Bool.false_and, Bool.false_eq_true, if_false]
    unfold charOf
    rw [if_pos hvalid, Char.ofNat_toNat]
    rfl
  refine ⟨((pos.next '\\').next 'u').past ['0', '0', a, b], ?_⟩
  rw [htext, scanStringFrom]
  simp only [Reader.next, Char.reduceBEq, Bool.false_eq_true, if_false, if_true]
  rw [hescape]

/-- One character of a string literal is read back. -/
theorem scanStringFrom_escapeChar (c : Char) :
    ∃ pos', scanStringFrom '"' start (fuel + 1) acc ⟨(Json.escapeChar c).toList ++ rest, pos⟩ =
      scanStringFrom '"' start fuel (c :: acc) ⟨rest, pos'⟩ := by
  have hcode : ∀ n, (c.toNat == n) = true → Char.ofNat n = c := fun n hn =>
    eq_of_beq hn ▸ Char.ofNat_toNat c
  unfold Json.escapeChar
  split_ifs with hquote hslash hb hf hn hr ht hcontrol
  · exact scanStringFrom_letter '"' rfl (by decide) (eq_of_beq hquote).symm
  · exact scanStringFrom_letter '\\' rfl (by decide) (eq_of_beq hslash).symm
  · exact scanStringFrom_letter 'b' rfl (by decide) (hcode 8 hb)
  · exact scanStringFrom_letter 'f' rfl (by decide) (hcode 12 hf)
  · exact scanStringFrom_letter 'n' rfl (by decide) (eq_of_beq hn).symm
  · exact scanStringFrom_letter 'r' rfl (by decide) (eq_of_beq hr).symm
  · exact scanStringFrom_letter 't' rfl (by decide) (eq_of_beq ht).symm
  · exact scanStringFrom_number hcontrol
  · simp only [beq_iff_eq] at hquote hn hslash
    rw [show c.toString.toList = [c] from String.toList_singleton c]
    exact ⟨_, scanStringFrom_plain hquote hn hslash⟩

theorem scanStringFrom_escaped (hfuel : cs.length < fuel) :
    ∃ pos', scanStringFrom '"' start fuel acc ⟨escaped cs ++ '"' :: rest, pos⟩ =
      .ok (String.ofList (acc.reverse ++ cs), ⟨rest, pos'⟩) := by
  induction cs generalizing fuel acc pos with
  | nil =>
    obtain ⟨fuel, rfl⟩ := Nat.exists_eq_add_one.2 hfuel
    refine ⟨pos.next '"', ?_⟩
    rw [List.append_nil]
    rfl
  | cons c cs ih =>
    obtain ⟨fuel, rfl⟩ := Nat.exists_eq_add_one.2 (Nat.zero_lt_of_lt hfuel)
    have htext : escaped (c :: cs) ++ '"' :: rest =
        (Json.escapeChar c).toList ++ (escaped cs ++ '"' :: rest) := by
      simp [escaped]
    rw [htext]
    obtain ⟨pos₁, hchar⟩ := scanStringFrom_escapeChar c
    rw [hchar]
    obtain ⟨pos₂, hrest⟩ := ih (Nat.lt_of_succ_lt_succ hfuel)
    refine ⟨pos₂, ?_⟩
    rw [hrest, reverse_cons, append_assoc]
    rfl

end Strings

theorem length_le_escaped (cs : List Char) : cs.length ≤ (escaped cs).length := by
  induction cs with
  | nil => exact Nat.le_refl 0
  | cons c cs ih =>
    have hc : 0 < (Json.escapeChar c).toList.length := by
      unfold Json.escapeChar
      split_ifs <;> simp [Char.toString]
    rw [escaped, flatMap_cons, length_append, length_cons]
    exact Nat.succ_le_of_lt (Nat.lt_of_le_of_lt ih (Nat.lt_add_of_pos_left hc))

/-- A string literal is read back, whatever follows it. -/
theorem TokenKind.legible_str (s : String) (rest : List Char) : (TokenKind.str s).Legible rest := by
  have hspelling : (TokenKind.str s).spelling = '"' :: (escaped s.toList ++ ['"']) :=
    Json.toList_literal s
  have htext : (TokenKind.str s).spelling ++ rest = '"' :: (escaped s.toList ++ '"' :: rest) := by
    simp [hspelling]
  refine ⟨fun newline pos => ?_, '"', _, hspelling, fun pos => ?_⟩
  · rw [htext]
    exact skipFrom_inner (by decide) (.inl (by decide))
  · have hfuel : s.toList.length < ('"' :: (escaped s.toList ++ '"' :: rest)).length + 1 := by
      have := length_le_escaped s.toList
      simp only [length_cons, length_append]
      omega
    obtain ⟨pos', hstring⟩ := scanStringFrom_escaped hfuel
    refine ⟨pos', ?_⟩
    rw [htext]
    show (scanStringFrom '"' pos _ [] ⟨escaped s.toList ++ '"' :: rest, pos.next '"'⟩ >>= _) = _
    rw [hstring]
    show Except.ok _ = _
    rw [reverse_nil, List.nil_append, String.ofList_toList]

/-! ## Numbers -/

namespace Number

/-- A number that is read back from its digits. No number with a sign is, and
none that is not finite. -/
def ReadsBack (x : Float) : Prop :=
  readNumeral? (Layout.script.text x).toList = some x

instance : DecidablePred ReadsBack := fun x =>
  inferInstanceAs (Decidable (readNumeral? (Layout.script.text x).toList = some x))

/-- Digits, or digits around a point. -/
inductive Numeral : List Char → Prop
  | whole {ds : List Char} (hne : ds ≠ []) (hds : ∀ c ∈ ds, c.isDigit = true) : Numeral ds
  | point {ds fs : List Char} (hne : ds ≠ []) (hds : ∀ c ∈ ds, c.isDigit = true)
      (hfne : fs ≠ []) (hfs : ∀ c ∈ fs, c.isDigit = true) : Numeral (ds ++ '.' :: fs)

theorem isDigit_toDigits (n : Nat) : ∀ c ∈ Nat.toDigits 10 n, c.isDigit = true :=
  fun _ => Nat.isDigit_of_mem_toDigits (by decide) (by decide)

theorem numeral_inPlaceText (hne : ds ≠ []) (hds : ∀ c ∈ ds, c.isDigit = true) (k : Int) :
    Numeral (inPlaceText ds k "").toList := by
  have hzeros : ∀ n, ∀ c ∈ (zeros n).toList, c.isDigit = true := by
    intro n c hc
    rw [zeros, String.toList_ofList] at hc
    rw [eq_of_mem_replicate hc]
    rfl
  unfold inPlaceText
  split_ifs with hk hlength
  · have htext : ("0." ++ zeros (-k).toNat ++ String.ofList ds).toList =
        ['0'] ++ '.' :: ((zeros (-k).toNat).toList ++ ds) := by simp
    rw [htext]
    refine .point (cons_ne_nil _ _) (by simp) (by simp [hne]) ?_
    exact forall_mem_append.2 ⟨hzeros _, hds⟩
  · have htext :
        (String.ofList (ds.take k.toNat) ++ "." ++ String.ofList (ds.drop k.toNat)).toList =
        ds.take k.toNat ++ '.' :: ds.drop k.toNat := by simp
    rw [htext]
    refine .point ?_ (fun c hc => hds c (mem_of_mem_take hc)) ?_
      (fun c hc => hds c (mem_of_mem_drop hc))
    · simp only [ne_eq, take_eq_nil_iff, not_or]
      exact ⟨by omega, hne⟩
    · simpa using hlength
  · have htext : (String.ofList ds ++ zeros (k.toNat - ds.length) ++ "").toList =
        ds ++ (zeros (k.toNat - ds.length)).toList := by simp
    rw [htext]
    exact .whole (by simp [hne]) (forall_mem_append.2 ⟨hds, hzeros _⟩)

theorem readNumeral?_eq_none (hdigit : c.isDigit = false) (hpoint : c ≠ '.') :
    readNumeral? (c :: cs) = none := by
  simp [readNumeral?, hdigit, hpoint]

theorem numeral_magnitudeText (x : Float) : Numeral (Layout.script.magnitudeText x).toList := by
  unfold Layout.magnitudeText
  split
  · have hzero : Numeral ['0'] := .whole (cons_ne_nil _ _) (by simp)
    exact hzero
  · exact numeral_inPlaceText Nat.toDigits_ne_nil (isDigit_toDigits _) _

/-- The text of a number that is read back is a numeral. -/
theorem ReadsBack.numeral (h : ReadsBack x) :
    Numeral (Layout.script.text x).toList := by
  have hbegin : ∀ c cs, (Layout.script.text x).toList = c :: cs →
      c.isDigit = false → c ≠ '.' → False := by
    intro c cs htext hdigit hpoint
    unfold ReadsBack at h
    rw [htext, readNumeral?_eq_none hdigit hpoint] at h
    cases h
  unfold Layout.text at hbegin ⊢
  split_ifs at hbegin ⊢ with hnan hinf hnegative hnegative
  · exact (hbegin 'N' _ rfl (by decide) (by decide)).elim
  · exact (hbegin '-' _ rfl (by decide) (by decide)).elim
  · exact (hbegin 'I' _ rfl (by decide) (by decide)).elim
  · refine (hbegin '-' (Layout.script.magnitudeText x.abs).toList ?_ (by decide) (by decide)).elim
    simp
  · exact numeral_magnitudeText x.abs

/-- A character that neither continues nor spoils a number. -/
abbrev EndsNumber (c : Char) : Prop :=
  c.isDigit = false ∧ c ≠ '.' ∧ Text.isLetter c = false ∧ c ≠ '_'

theorem readNumeral?_whole (hne : ds ≠ []) (hds : ∀ c ∈ ds, c.isDigit = true) :
    readNumeral? ds = some (ofNumeral ds [] 0) := by
  simp [readNumeral?, takeWhile_eq_self_iff.2 hds, dropWhile_eq_nil_iff.2 hds, hne]

theorem readNumeral?_point {fs : List Char} (hne : ds ≠ []) (hds : ∀ c ∈ ds, c.isDigit = true)
    (hfs : ∀ c ∈ fs, c.isDigit = true) :
    readNumeral? (ds ++ '.' :: fs) = some (ofNumeral ds fs 0) := by
  have hpoint : Next (fun c => c.isDigit = false) ('.' :: fs) := by
    rintro _ ⟨⟩
    rfl
  simp [readNumeral?, takeWhile_append_of_next hds hpoint, dropWhile_append_of_next hds hpoint,
    takeWhile_eq_self_iff.2 hfs, dropWhile_eq_nil_iff.2 hfs, hne]

end Number

theorem Reader.peekIs_zero (pos : Position) (h : Next (fun c => p c = false) cs) :
    (⟨cs, pos⟩ : Reader).peekIs 0 p = false := by
  cases cs with
  | nil => rfl
  | cons c cs => exact h c rfl

section Numerals

open Number

theorem Number.Numeral.chars (h : Numeral cs) :
    ∃ d tail, cs = d :: tail ∧ d.isDigit = true ∧ ∀ c ∈ tail, c.isDigit = true ∨ c = '.' := by
  cases h with
  | whole hne hds =>
    obtain ⟨d, tail, rfl⟩ := exists_cons_of_ne_nil hne
    obtain ⟨hd, htail⟩ := forall_mem_cons.1 hds
    exact ⟨d, tail, rfl, hd, fun c hc => .inl (htail c hc)⟩
  | @point ds fs hne hds _ hfs =>
    obtain ⟨d, tail, rfl⟩ := exists_cons_of_ne_nil hne
    obtain ⟨hd, htail⟩ := forall_mem_cons.1 hds
    refine ⟨d, tail ++ '.' :: fs, rfl, hd, fun c hc => ?_⟩
    rcases mem_append.1 hc with hc | hc
    · exact .inl (htail c hc)
    · rcases mem_cons.1 hc with rfl | hc
      · exact .inr rfl
      · exact .inl (hfs c hc)

variable {rest : List Char} (hrest : Next EndsNumber rest)

include hrest

theorem Number.Numeral.not_hex (h : Numeral cs) (pos : Position) :
    (⟨cs ++ rest, pos⟩ : Reader).peekIs 1 (fun c => c == 'x' || c == 'X') = false := by
  obtain ⟨d, tail, rfl, -, htail⟩ := h.chars
  have hnext : Next (fun c => (c == 'x' || c == 'X') = false) (tail ++ rest) := by
    intro c hc
    have hnumber : ∀ c : Char, c.isDigit = true ∨ c = '.' ∨ Text.isLetter c = false →
        (c == 'x' || c == 'X') = false := by
      intro c hc
      by_contra hx
      simp only [Bool.not_eq_false, Bool.or_eq_true, beq_iff_eq] at hx
      rcases hx with rfl | rfl <;> revert hc <;> decide
    refine hnumber c ?_
    cases tail with
    | nil => exact .inr (.inr (hrest c hc).2.2.1)
    | cons e tail =>
      cases hc
      exact (htail _ mem_cons_self).imp_right .inl
  exact Reader.peekIs_zero pos hnext

theorem Number.Numeral.scan (h : Numeral cs) (hx : readNumeral? cs = some x) (pos : Position) :
    ∃ pos', scanNumber ⟨cs ++ rest, pos⟩ = .ok (.number x, ⟨rest, pos'⟩) := by
  have hhex := h.not_hex hrest pos
  have hexponent : Next (fun c => (c == 'e' || c == 'E') = false) rest := by
    intro c hc
    by_contra he
    have hletter := (hrest c hc).2.2.1
    simp only [Bool.not_eq_false, Bool.or_eq_true, beq_iff_eq] at he
    rcases he with rfl | rfl <;> revert hletter <;> decide
  have hend : Next (fun c => (Text.isLetter c || c == '_') = false) rest := by
    intro c hc
    simp [(hrest c hc).2.2.1, (hrest c hc).2.2.2]
  have hpoint : Next (fun c => (c == '.') = false) rest := fun c hc =>
    beq_false_of_ne (hrest c hc).2.1
  have hdigit : Next (fun c => c.isDigit = false) rest := fun c hc => (hrest c hc).1
  unfold scanNumber
  rw [hhex, Bool.and_false, if_neg Bool.false_ne_true]
  cases h with
  | whole hne hds =>
    rw [readNumeral?_whole hne hds, Option.some.injEq] at hx
    refine ⟨pos.past cs, ?_⟩
    simp only [Reader.span, takeWhile_append_of_next hds hdigit,
      dropWhile_append_of_next hds hdigit, scanFraction, scanExponent,
      Reader.peekIs_zero _ hpoint, Reader.peekIs_zero _ hexponent, Reader.peekIs_zero _ hend,
      Bool.false_eq_true, if_false, hx]
  | @point ds fs hne hds hfne hfs =>
    rw [readNumeral?_point hne hds hfs, Option.some.injEq] at hx
    have hds' : Next (fun c => c.isDigit = false) ('.' :: (fs ++ rest)) := by
      rintro _ ⟨⟩
      rfl
    have hfraction : ∀ pos, scanFraction ⟨'.' :: (fs ++ rest), pos⟩ =
        (fs, ⟨rest, (pos.next '.').past fs⟩) := by
      intro pos
      obtain ⟨f, fs', rfl⟩ := exists_cons_of_ne_nil hfne
      have hf : (⟨'.' :: (f :: fs' ++ rest), pos⟩ : Reader).peekIs 1 Char.isDigit = true :=
        hfs f mem_cons_self
      have hdot : (⟨'.' :: (f :: fs' ++ rest), pos⟩ : Reader).peekIs 0 (· == '.') = true := rfl
      simp only [scanFraction, hdot, hf, if_true, Reader.next, Reader.span,
        takeWhile_append_of_next hfs hdigit, dropWhile_append_of_next hfs hdigit]
    refine ⟨((pos.past ds).next '.').past fs, ?_⟩
    rw [append_assoc, cons_append]
    simp only [Reader.span, takeWhile_append_of_next hds hds', dropWhile_append_of_next hds hds',
      hfraction, scanExponent, Reader.peekIs_zero _ hexponent, Reader.peekIs_zero _ hend,
      Bool.false_eq_true, if_false, hx]

/-- A number that is read back ends where no digit, point or letter follows. -/
theorem TokenKind.legible_number (hx : Number.ReadsBack x) :
    (TokenKind.number x).Legible rest := by
  obtain ⟨d, tail, htext, hd, -⟩ := hx.numeral.chars
  have hblank := Text.isBlank_of_isDigit hd
  have hslash : d ≠ '/' := by
    rintro rfl
    cases hd
  refine ⟨fun newline pos => ?_, d, tail, htext, fun pos => ?_⟩
  · rw [TokenKind.spelling, htext, cons_append]
    exact skipFrom_inner hblank (.inl hslash)
  · obtain ⟨pos', hscan⟩ := hx.numeral.scan hrest hx pos
    refine ⟨pos', ?_⟩
    unfold scanToken
    rw [hd, Bool.true_or, if_pos rfl]
    exact hscan

end Numerals

end BarScript

import BarScript.Proofs.Locations

/-!
# Tokens cover their text

The lexer loses nothing of a text and invents nothing. The tokens of a text cover parts
of it that follow each other, and what is left between them is blank or comment. The texts
of tokens have a grammar of their own, with one rule for each way to write a number, a
string, a word or a mark. It judges a token by the characters that the token covers, and by
nothing else.
-/

namespace BarScript

open List
open Reader (peek? peekIs)

/-! ## Positions -/

@[simp] theorem Position.past_nil (p : Position) : p.past [] = p := rfl

@[simp] theorem Position.past_cons (p : Position) (c : Char) (cs : List Char) :
    p.past (c :: cs) = (p.next c).past cs := rfl

@[simp] theorem Position.past_append (p : Position) (cs ds : List Char) :
    p.past (cs ++ ds) = (p.past cs).past ds := foldl_append

/-! ## Blanks and comments -/

/-- Blanks and complete comments. A line comment is complete with the line end after it,
and at the end of a text, if this is the `last` part of one, without it. -/
inductive Trivia (last : Bool) : List Char → Prop
  | nil : Trivia last []
  | blank (hc : Text.isBlank c = true) (h : Trivia last cs) : Trivia last (c :: cs)
  | line (hbody : '\n' ∉ body) (h : Trivia last cs) :
    Trivia last ('/' :: '/' :: (body ++ '\n' :: cs))
  | ending (hlast : last = true) (hbody : '\n' ∉ body) : Trivia last ('/' :: '/' :: body)
  | block (hbody : ¬ ['*', '/'] <:+: body) (h : Trivia last cs) :
    Trivia last ('/' :: '*' :: (body ++ '*' :: '/' :: cs))

/-- What is passed in the course of skipping: trivia, or the rest of a comment and trivia
after it. -/
def Skipping.Passes (last : Bool) : Skipping → List Char → Prop
  | .blanks, gap => Trivia last gap
  | .lineComment, gap => ∃ body, '\n' ∉ body ∧
    (last = true ∧ gap = body ∨ ∃ cs, Trivia last cs ∧ gap = body ++ '\n' :: cs)
  | .blockComment _, gap => ∃ body cs, ¬ ['*', '/'] <:+: body ∧ Trivia last cs ∧
    gap = body ++ '*' :: '/' :: cs

/-- Neither a blank nor a comment begins here. -/
def IsSkipped (cs : List Char) : Prop :=
  Next (fun c => Text.isBlank c = false ∧ (c = '/' → Next (fun d => d ≠ '/' ∧ d ≠ '*') cs.tail)) cs

theorem Text.isBlank_newline : Text.isBlank '\n' = true := by decide

theorem skipFrom_passes (h : skipFrom newline mode pos cs = .ok (newline', r)) :
    ∃ gap, cs = gap ++ r.rest ∧ r.pos = pos.past gap ∧ newline' = (newline || gap.contains '\n') ∧
      IsSkipped r.rest ∧ mode.Passes r.rest.isEmpty gap := by
  fun_induction skipFrom newline mode pos cs with
  | case1 =>
    cases h
    exact ⟨[], rfl, rfl, by simp, (fun _ h => by cases h), .nil⟩
  | case2 newline pos rest ih =>
    obtain ⟨gap, rfl, hpos, hnewline, hstops, body, hbody, hgap⟩ := ih h
    refine ⟨'/' :: '/' :: gap, rfl, hpos, by simpa using hnewline, hstops, ?_⟩
    rcases hgap with ⟨hlast, rfl⟩ | ⟨cs, hcs, rfl⟩
    · exact .ending hlast hbody
    · exact .line hbody hcs
  | case3 newline pos rest ih =>
    obtain ⟨gap, rfl, hpos, hnewline, hstops, body, cs, hbody, hcs, rfl⟩ := ih h
    exact ⟨'/' :: '*' :: (body ++ '*' :: '/' :: cs), rfl, hpos, by simpa using hnewline,
      hstops, .block hbody hcs⟩
  | case4 newline pos c rest _ _ hc ih =>
    obtain ⟨gap, rfl, hpos, hnewline, hstops, hgap⟩ := ih h
    obtain rfl := eq_of_beq hc
    exact ⟨'\n' :: gap, rfl, hpos, by simpa using hnewline, hstops,
      .blank Text.isBlank_newline hgap⟩
  | case5 newline pos c rest _ _ hc hblank ih =>
    obtain ⟨gap, rfl, hpos, hnewline, hstops, hgap⟩ := ih h
    refine ⟨c :: gap, rfl, hpos, ?_, hstops, .blank hblank hgap⟩
    rw [hnewline, contains_cons, Bool.beq_comm, Bool.eq_false_iff.2 hc, Bool.false_or]
  | case6 newline pos c rest hline hblock hc hblank =>
    cases h
    refine ⟨[], rfl, rfl, by simp, ?_, .nil⟩
    rintro _ ⟨⟩
    refine ⟨Bool.eq_false_iff.2 hblank, fun hslash d hd => ⟨?_, ?_⟩⟩
    · rintro rfl
      exact hline _ hslash (eq_cons_of_mem_head? hd)
    · rintro rfl
      exact hblock _ hslash (eq_cons_of_mem_head? hd)
  | case7 =>
    cases h
    exact ⟨[], rfl, rfl, by simp, (fun _ h => by cases h), [], not_mem_nil, .inl ⟨rfl, rfl⟩⟩
  | case8 newline pos c rest hc ih =>
    obtain ⟨gap, rfl, hpos, hnewline, hstops, hgap⟩ := ih h
    obtain rfl := eq_of_beq hc
    exact ⟨'\n' :: gap, rfl, hpos, by simpa using hnewline, hstops, [], not_mem_nil,
      .inr ⟨gap, hgap, rfl⟩⟩
  | case9 newline pos c rest hc ih =>
    obtain ⟨gap, rfl, hpos, hnewline, hstops, body, hbody, hgap⟩ := ih h
    have hne : '\n' ≠ c := fun heq => hc (heq ▸ rfl)
    refine ⟨c :: gap, rfl, hpos, ?_, hstops, c :: body, by simp [hne, hbody], ?_⟩
    · rw [hnewline, contains_cons, Bool.beq_comm, Bool.eq_false_iff.2 hc, Bool.false_or]
    · rcases hgap with ⟨hlast, rfl⟩ | ⟨cs, hcs, rfl⟩
      · exact .inl ⟨hlast, rfl⟩
      · exact .inr ⟨cs, hcs, rfl⟩
  | case10 => cases h
  | case11 newline start pos rest ih =>
    obtain ⟨gap, rfl, hpos, hnewline, hstops, hgap⟩ := ih h
    refine ⟨'*' :: '/' :: gap, rfl, hpos, by simpa using hnewline, hstops, [], gap, ?_, hgap, rfl⟩
    exact fun hinfix => by cases infix_nil.1 hinfix
  | case12 newline start pos c rest hend ih =>
    obtain ⟨gap, rfl, hpos, hnewline, hstops, body, cs, hbody, hcs, rfl⟩ := ih h
    refine ⟨c :: (body ++ '*' :: '/' :: cs), rfl, hpos, ?_, hstops, c :: body, cs, ?_, hcs, rfl⟩
    · rw [hnewline, contains_cons, Bool.or_assoc, Bool.beq_comm]
    · -- A comment is over at the first star with a slash after it.
      intro hinfix
      rcases infix_cons_iff.1 hinfix with hprefix | hinfix
      · obtain ⟨tail, htail⟩ := hprefix
        obtain ⟨rfl, rfl⟩ := cons.inj htail
        exact hend _ rfl rfl
      · exact hbody hinfix

/-! ## Escapes and strings -/

theorem Scan.ok_bind (a : α) (f : α → Scan β) : ((.ok a : Scan α) >>= f) = f a := rfl

theorem scanUnit_ok (h : scanUnit start ⟨cs, pos⟩ = .ok (n, r)) :
    ∃ ds, ds.length = 4 ∧ ds.all isHexDigit = true ∧ n = ofHexDigits ds ∧ cs = ds ++ r.rest ∧
      r.pos = pos.past ds := by
  unfold scanUnit at h
  dsimp only at h
  split at h
  · next hds =>
    cases h
    obtain ⟨hlength, hall⟩ := Bool.and_eq_true_iff.1 hds
    exact ⟨cs.take 4, of_decide_eq_true hlength, hall, rfl, (take_append_drop 4 cs).symm, rfl⟩
  · cases h

theorem scanUnit_append (hlength : ds.length = 4) (hds : ds.all isHexDigit = true)
    (start : Position) (rest : List Char) (pos : Position) :
    scanUnit start ⟨ds ++ rest, pos⟩ = .ok (ofHexDigits ds, ⟨rest, pos.past ds⟩) := by
  have htake : (ds ++ rest).take 4 = ds := by rw [← hlength, take_left]
  have hdrop : (ds ++ rest).drop 4 = rest := by rw [← hlength, drop_left]
  simp [scanUnit, htake, hdrop, hlength, hds, Reader.drop]

theorem charOf_eq_ok_iff : charOf start n = .ok c ↔ n.isValidChar ∧ Char.ofNat n = c := by
  unfold charOf
  split
  · next h => simp [h]
  · next h => simp [h, scanError]

/-- A leading surrogate. -/
def IsLeading (n : Nat) : Prop := 0xd800 ≤ n ∧ n < 0xdc00

instance : DecidablePred IsLeading := fun n =>
  inferInstanceAs (Decidable (0xd800 ≤ n ∧ n < 0xdc00))

/-- The code point that the lexer makes of a leading surrogate and the unit after it. -/
def folded (high low : Nat) : Nat :=
  0x10000 + (high - 0xd800) * 0x400 + low - 0xdc00

theorem IsLeading.not_isValidChar (h : IsLeading n) : ¬ n.isValidChar := by
  obtain ⟨hle, hlt⟩ := h
  rintro (h | ⟨h, -⟩) <;> omega

/-- An escape is read as one unit, or as a leading surrogate with the escape after it. -/
theorem scanEscape_append (hlength : ds.length = 4) (hds : ds.all isHexDigit = true)
    (start : Position) (rest : List Char) (pos : Position) : scanEscape start ⟨ds ++ rest, pos⟩ =
      if IsLeading (ofHexDigits ds) ∧ ['\\', 'u'] <+: rest then
        scanUnit start ((⟨rest, pos.past ds⟩ : Reader).drop 2) >>= fun u =>
          charOf start (folded (ofHexDigits ds) u.1) >>= fun c => pure (c, u.2)
      else (·, ⟨rest, pos.past ds⟩) <$> charOf start (ofHexDigits ds) := by
  have hprefix : ((⟨rest, pos.past ds⟩ : Reader).peekIs 0 (· == '\\') &&
      (⟨rest, pos.past ds⟩ : Reader).peekIs 1 (· == 'u')) = decide (['\\', 'u'] <+: rest) := by
    match rest with
    | [] | [_] => simp [peekIs, peek?]
    | a :: b :: _ =>
      rw [Bool.eq_iff_iff]
      simp [peekIs, peek?, @eq_comm _ a, @eq_comm _ b]
  unfold scanEscape
  rw [scanUnit_append hlength hds]
  show (if _ then _ else _) = _
  rw [Bool.and_assoc, hprefix, ← Bool.decide_and, ← Bool.decide_and]
  simp only [decide_eq_true_eq]
  rfl

/-- Escapes by number, after their `\u`: one unit that is a character, or a leading surrogate
with the escape after it. -/
inductive EscapeText : List Char → Char → Prop
  | unit {ds : List Char} (hlength : ds.length = 4) (hds : ds.all isHexDigit = true)
      (hvalid : (ofHexDigits ds).isValidChar) : EscapeText ds (Char.ofNat (ofHexDigits ds))
  | pair {ds ds' : List Char} (hlength : ds.length = 4) (hds : ds.all isHexDigit = true)
      (hleading : IsLeading (ofHexDigits ds)) (hlength' : ds'.length = 4)
      (hds' : ds'.all isHexDigit = true)
      (hvalid : (folded (ofHexDigits ds) (ofHexDigits ds')).isValidChar) :
      EscapeText (ds ++ '\\' :: 'u' :: ds')
        (Char.ofNat (folded (ofHexDigits ds) (ofHexDigits ds')))

theorem scanEscape_ok {start pos : Position} {cs : List Char} {c : Char} {r : Reader}
    (h : scanEscape start ⟨cs, pos⟩ = .ok (c, r)) :
    ∃ text, cs = text ++ r.rest ∧ r.pos = pos.past text ∧ EscapeText text c := by
  have hunit := h
  obtain ⟨⟨n, r₁⟩, hunit, -⟩ := Except.of_bind_eq_ok hunit
  obtain ⟨ds, hlength, hds, -, rfl, -⟩ := scanUnit_ok hunit
  rw [scanEscape_append hlength hds] at h
  split at h
  · next hpair =>
    obtain ⟨hleading, rest, hrest⟩ := hpair
    rw [← hrest] at h
    obtain ⟨⟨low, r₂⟩, hlow, h⟩ := Except.of_bind_eq_ok h
    obtain ⟨c, hc, h⟩ := Except.of_bind_eq_ok h
    cases h
    obtain ⟨ds', hlength', hds', rfl, hrest', hpos⟩ := scanUnit_ok hlow
    have hrest' : rest = ds' ++ r₂.rest := hrest'
    obtain ⟨hvalid, rfl⟩ := charOf_eq_ok_iff.1 hc
    exact ⟨ds ++ '\\' :: 'u' :: ds', by simp [← hrest, hrest'], by simpa using hpos,
      .pair hlength hds hleading hlength' hds' hvalid⟩
  · obtain ⟨c, hc, h⟩ := Except.of_bind_eq_ok h
    cases h
    obtain ⟨hvalid, rfl⟩ := charOf_eq_ok_iff.1 hc
    exact ⟨ds, rfl, rfl, .unit hlength hds hvalid⟩

/-- What follows the quote that opens a string literal, with the characters of the string. -/
inductive StringText (quote : Char) : List Char → List Char → Prop
  | close : StringText quote [quote] []
  | plain {c : Char} {text s : List Char} (hquote : c ≠ quote) (hline : c ≠ '\n')
      (hslash : c ≠ '\\') (h : StringText quote text s) : StringText quote (c :: text) (c :: s)
  | letter {e : Char} {text s : List Char} (he : e ≠ 'u') (h : StringText quote text s) :
      StringText quote ('\\' :: e :: text) (escapedChar e :: s)
  | number {c : Char} {escape text s : List Char} (he : EscapeText escape c)
      (h : StringText quote text s) : StringText quote ('\\' :: 'u' :: (escape ++ text)) (c :: s)

theorem scanStringFrom_ok {quote : Char} {start : Position} {fuel : Nat} {acc : List Char}
    {r r' : Reader} {s : String} (h : scanStringFrom quote start fuel acc r = .ok (s, r')) :
    ∃ text cs, r.rest = text ++ r'.rest ∧ r'.pos = r.pos.past text ∧ StringText quote text cs ∧
      s = String.ofList (acc.reverse ++ cs) := by
  fun_induction scanStringFrom quote start fuel acc r with
  | case1 | case2 | case4 | case5 | case7 => cases h
  | case3 fuel acc r c rest hrest hquote =>
    obtain ⟨_, pos⟩ := r
    cases hrest
    cases h
    obtain rfl := eq_of_beq hquote
    exact ⟨[c], [], rfl, rfl, .close, by rw [append_nil]⟩
  | case6 fuel acc r c hquote hline hslash tail a r₁ hescape hrest ih =>
    obtain ⟨_, pos⟩ := r
    cases hrest
    obtain rfl := eq_of_beq hslash
    obtain ⟨escape, htail, hpos₁, hescape⟩ := scanEscape_ok hescape
    obtain ⟨text, cs, hrest, hpos, htext, rfl⟩ := ih h
    have htail : tail = escape ++ r₁.rest := htail
    refine ⟨'\\' :: 'u' :: (escape ++ text), a :: cs, ?_, ?_, .number hescape htext, by simp⟩
    · simp [htail, hrest]
    · rw [hpos, hpos₁, Position.past_cons, Position.past_cons, Position.past_append]
      rfl
  | case8 fuel acc r c hquote hline hslash e tail he hrest ih =>
    obtain ⟨_, pos⟩ := r
    cases hrest
    obtain rfl := eq_of_beq hslash
    obtain ⟨text, cs, hrest, hpos, htext, rfl⟩ := ih h
    have hrest : tail = text ++ r'.rest := hrest
    exact ⟨'\\' :: e :: text, escapedChar e :: cs, by rw [hrest]; rfl, hpos, .letter he htext,
      by simp⟩
  | case9 fuel acc r c rest hrest hquote hline hslash ih =>
    obtain ⟨_, pos⟩ := r
    cases hrest
    obtain ⟨text, cs, hrest, hpos, htext, rfl⟩ := ih h
    have hrest : rest = text ++ r'.rest := hrest
    exact ⟨c :: text, c :: cs, by rw [hrest]; rfl, hpos,
      .plain (by simpa using hquote) (by simpa using hline) (by simpa using hslash) htext, by simp⟩

/-! ## Numbers -/

section Numbers

variable {p : Char → Bool} {pos : Position} {r : Reader} {cs : List Char} {c : Char}

theorem Reader.peekIs_zero_iff : (⟨cs, pos⟩ : Reader).peekIs 0 p = true ↔
    ∃ c rest, cs = c :: rest ∧ p c = true := by
  cases cs <;> simp [peekIs, peek?]

theorem Reader.peekIs_succ (n : Nat) :
    (⟨c :: cs, pos⟩ : Reader).peekIs (n + 1) p = (⟨cs, pos⟩ : Reader).peekIs n p := rfl

open Reader (peekIs_zero_iff peekIs_succ)

theorem forall_mem_takeWhile (p : Char → Bool) (cs : List Char) :
    ∀ c ∈ cs.takeWhile p, p c = true :=
  fun _ => mem_takeWhile_imp

/-- Fractions with their digits: none, or a point and digits. -/
inductive FractionText : List Char → List Char → Prop
  | none : FractionText [] []
  | point {ds : List Char} (hds : ∀ d ∈ ds, d.isDigit = true) : FractionText ('.' :: ds) ds

abbrev isExponentMark (c : Char) : Bool := c == 'e' || c == 'E'

/-- Exponents with their numbers: none, or an `e` and digits, with or without a sign. -/
inductive ExponentText : List Char → Int → Prop
  | none : ExponentText [] 0
  | plain {e : Char} {ds : List Char} (he : isExponentMark e = true) (hne : ds ≠ [])
      (hds : ∀ d ∈ ds, d.isDigit = true) : ExponentText (e :: ds) (Number.ofDigits ds)
  | signed {e sign : Char} {ds : List Char} (he : isExponentMark e = true)
      (hsign : sign = '+' ∨ sign = '-') (hne : ds ≠ []) (hds : ∀ d ∈ ds, d.isDigit = true) :
      ExponentText (e :: sign :: ds)
        (if sign == '-' then -(Number.ofDigits ds : Int) else Number.ofDigits ds)

/-- Number literals. A decimal one has a digit before or after its point, and no exponent
after a point that no digit follows. -/
inductive NumberText : List Char → Float → Prop
  | hex {x : Char} {ds : List Char} (hx : x = 'x' ∨ x = 'X') (hne : ds ≠ [])
      (hds : ∀ d ∈ ds, isHexDigit d = true) (hlt : ofHexDigits ds < 18446744073709551616) :
      NumberText ('0' :: x :: ds) (Float.ofNat (ofHexDigits ds))
  | decimal {whole fraction fs exponent : List Char} {n : Int}
      (hwhole : ∀ d ∈ whole, d.isDigit = true) (hfraction : FractionText fraction fs)
      (hexponent : ExponentText exponent n) (hdigit : whole ≠ [] ∨ fs ≠ [])
      (hpoint : fraction = ['.'] → exponent = []) :
      NumberText (whole ++ (fraction ++ exponent)) (Number.ofNumeral whole fs n)

theorem scanExponent_ok {n : Int} (h : scanExponent ⟨cs, pos⟩ = (n, r)) :
    ∃ text, cs = text ++ r.rest ∧ r.pos = pos.past text ∧ ExponentText text n ∧
      ((⟨cs, pos⟩ : Reader).peekIs 0 isExponentMark = false → text = []) := by
  have hnone : (0, (⟨cs, pos⟩ : Reader)) = (n, r) → ∃ text, cs = text ++ r.rest ∧
      r.pos = pos.past text ∧ ExponentText text n ∧
      ((⟨cs, pos⟩ : Reader).peekIs 0 isExponentMark = false → text = []) := by
    rintro ⟨⟩
    exact ⟨[], rfl, rfl, .none, fun _ => rfl⟩
  unfold scanExponent at h
  split at h
  · next hmark =>
    obtain ⟨e, cs, rfl, he⟩ := peekIs_zero_iff.1 hmark
    split at h
    · next hsign =>
      rw [Bool.and_eq_true, peekIs_succ, peekIs_succ] at hsign
      obtain ⟨hsign, hdigit⟩ := hsign
      obtain ⟨sign, cs, rfl, hs⟩ := peekIs_zero_iff.1 hsign
      rw [peekIs_succ] at hdigit
      obtain ⟨d, cs, rfl, hd⟩ := peekIs_zero_iff.1 hdigit
      cases h
      refine ⟨e :: sign :: (d :: cs).takeWhile Char.isDigit, ?_, rfl, ?_,
        fun h => by cases h.symm.trans hmark⟩
      · simp [Reader.drop, takeWhile_append_dropWhile]
      · refine .signed he (by simpa using hs) ?_ (forall_mem_takeWhile _ _)
        rw [takeWhile_cons_of_pos hd]
        exact cons_ne_nil _ _
    · split at h
      · next hdigit =>
        rw [peekIs_succ] at hdigit
        obtain ⟨d, cs, rfl, hd⟩ := peekIs_zero_iff.1 hdigit
        cases h
        refine ⟨e :: (d :: cs).takeWhile Char.isDigit, ?_, rfl, ?_,
          fun h => by cases h.symm.trans hmark⟩
        · simp [Reader.drop, takeWhile_append_dropWhile]
        · refine .plain he ?_ (forall_mem_takeWhile _ _)
          rw [takeWhile_cons_of_pos hd]
          exact cons_ne_nil _ _
      · exact hnone h
  · exact hnone h

theorem scanFraction_ok {fs : List Char} (h : scanFraction ⟨cs, pos⟩ = (fs, r)) :
    ∃ text, cs = text ++ r.rest ∧ r.pos = pos.past text ∧ FractionText text fs ∧
      (text = ['.'] → r.peekIs 0 isExponentMark = false) ∧
      ((⟨cs, pos⟩ : Reader).peekIs 0 (· == '.') = true →
        (⟨cs, pos⟩ : Reader).peekIs 1 Char.isDigit = true → fs ≠ []) := by
  unfold scanFraction at h
  split at h
  · next hpoint =>
    obtain ⟨_, cs, rfl, hpoint⟩ := peekIs_zero_iff.1 hpoint
    obtain rfl := eq_of_beq hpoint
    split at h
    · next hdigit =>
      rw [peekIs_succ] at hdigit
      obtain ⟨d, cs, rfl, hd⟩ := peekIs_zero_iff.1 hdigit
      cases h
      refine ⟨'.' :: (d :: cs).takeWhile Char.isDigit, by simp [Reader.next], rfl,
        .point (forall_mem_takeWhile _ _), fun h => ?_, fun _ _ => ?_⟩
      · rw [takeWhile_cons_of_pos hd] at h
        cases h
      · show (d :: cs).takeWhile Char.isDigit ≠ []
        rw [takeWhile_cons_of_pos hd]
        exact cons_ne_nil _ _
    · next hdigit =>
      split at h
      · cases h
        exact ⟨[], rfl, rfl, .none, (fun h => by cases h), fun _ h => absurd h hdigit⟩
      · next hletter =>
        cases h
        refine ⟨['.'], rfl, rfl, .point (fun _ h => by cases h), fun _ => ?_,
          fun _ h => absurd h hdigit⟩
        -- an exponent would begin with a letter
        rw [peekIs_succ] at hletter
        refine Bool.eq_false_iff.2 fun hmark => hletter ?_
        obtain ⟨e, rest, hrest, he⟩ := peekIs_zero_iff.1 hmark
        refine peekIs_zero_iff.2 ⟨e, rest, hrest, ?_⟩
        simp only [Bool.or_eq_true, beq_iff_eq] at he
        rcases he with rfl | rfl <;> decide
  · next hpoint =>
    cases h
    exact ⟨[], rfl, rfl, .none, (fun h => by cases h), fun h => absurd h hpoint⟩

abbrev beginsNumber (r : Reader) : Bool :=
  r.peekIs 0 Char.isDigit || r.peekIs 0 (· == '.') && r.peekIs 1 Char.isDigit

theorem scanNumber_ok {k : TokenKind} (hbegin : beginsNumber ⟨cs, pos⟩ = true)
    (h : scanNumber ⟨cs, pos⟩ = .ok (k, r)) :
    ∃ text x, cs = text ++ r.rest ∧ r.pos = pos.past text ∧ NumberText text x ∧ k = .number x := by
  unfold scanNumber at h
  split at h
  · next hhex =>
    rw [Bool.and_eq_true] at hhex
    obtain ⟨z, cs, rfl, hz⟩ := peekIs_zero_iff.1 hhex.1
    obtain rfl := eq_of_beq hz
    rw [peekIs_succ] at hhex
    obtain ⟨x, cs, rfl, hx⟩ := peekIs_zero_iff.1 hhex.2
    unfold scanHex at h
    simp only [Reader.drop, Reader.span, drop_succ_cons, drop_zero] at h
    split at h
    · cases h
    · next hvalue =>
      cases h
      simp only [Bool.or_eq_true, decide_eq_true_eq, List.isEmpty_iff, not_or, Nat.not_le] at hvalue
      exact ⟨'0' :: x :: cs.takeWhile isHexDigit, _, by simp, rfl,
        .hex (by simpa using hx) hvalue.1 (forall_mem_takeWhile _ _) hvalue.2, rfl⟩
  · dsimp only [Reader.span] at h
    generalize hfraction : scanFraction _ = f at h
    obtain ⟨fs, r₁⟩ := f
    generalize hexponent : scanExponent _ = e at h
    obtain ⟨n, r₂⟩ := e
    split at h
    · cases h
    · cases h
      obtain ⟨t₁, hcs₁, hpos₁, htext₁, hpoint, hdigits⟩ := scanFraction_ok hfraction
      obtain ⟨t₂, hcs₂, hpos₂, htext₂, hnone⟩ := scanExponent_ok hexponent
      refine ⟨cs.takeWhile Char.isDigit ++ (t₁ ++ t₂), _, ?_, ?_,
        .decimal (forall_mem_takeWhile _ _) htext₁ htext₂ ?_ fun h => hnone (hpoint h), rfl⟩
      · conv_lhs => rw [← takeWhile_append_dropWhile (p := Char.isDigit) (l := cs), hcs₁, hcs₂]
        simp
      · rw [hpos₂, Position.past_append, Position.past_append]
        exact congrArg (·.past t₂) hpos₁
      · cases cs with
        | nil => cases hbegin
        | cons c cs =>
          cases hc : c.isDigit with
          | true =>
            rw [takeWhile_cons_of_pos hc]
            exact .inl (cons_ne_nil _ _)
          | false =>
            have hpoint : (c == '.' && (⟨c :: cs, pos⟩ : Reader).peekIs 1 Char.isDigit) = true := by
              simpa [peekIs, peek?, hc] using hbegin
            rw [dropWhile_cons_of_neg (by simp [hc]),
                takeWhile_cons_of_neg (by simp [hc])] at hdigits
            rw [Bool.and_eq_true] at hpoint
            exact .inr (hdigits hpoint.1 hpoint.2)

end Numbers

/-! ## Tokens -/

theorem scanMark_ok {cs : List Char} {pos : Position} {k : TokenKind} {r : Reader}
    (h : scanMark ⟨cs, pos⟩ = .ok (k, r)) :
    ∃ m ∈ marks, cs = m.toList ++ r.rest ∧ r.pos = pos.past m.toList ∧ k = .mark m := by
  unfold scanMark at h
  split at h
  · next m hm =>
    cases h
    have hprefix : m.toList.isPrefixOf cs = true := by simpa using find?_some hm
    obtain ⟨rest, rfl⟩ := List.isPrefixOf_iff_prefix.1 hprefix
    refine ⟨m, mem_of_find?_eq_some hm, ?_, ?_, rfl⟩ <;>
      simp [Reader.drop, ← String.length_toList]
  · cases h

/-- **The texts of tokens.** -/
inductive IsTokenText : List Char → TokenKind → Prop
  | number {text : List Char} {x : Float} (h : NumberText text x) : IsTokenText text (.number x)
  | str {quote : Char} {text s : List Char} (hquote : quote = '"' ∨ quote = '\'')
      (h : StringText quote text s) : IsTokenText (quote :: text) (.str (String.ofList s))
  | word {c : Char} {cs : List Char} (hbegin : beginsWord c = true)
      (hrest : ∀ d ∈ cs, continuesWord d = true) :
      IsTokenText (c :: cs) (.word (String.ofList (c :: cs)))
  | mark {m : String} (hm : m ∈ marks) : IsTokenText m.toList (.mark m)

/-- A token has a text, and passes at least one character. -/
theorem scanToken_ok {c : Char} {cs : List Char} {pos : Position} {k : TokenKind} {r : Reader}
    (h : scanToken c ⟨c :: cs, pos⟩ = .ok (k, r)) :
    ∃ text, c :: cs = text ++ r.rest ∧ r.pos = pos.past text ∧ text ≠ [] ∧ IsTokenText text k := by
  unfold scanToken at h
  split at h
  · next hnumber =>
    have hbegin : beginsNumber ⟨c :: cs, pos⟩ = true := hnumber
    obtain ⟨text, x, hcs, hpos, htext, rfl⟩ := scanNumber_ok hbegin h
    refine ⟨text, hcs, hpos, ?_, .number htext⟩
    cases htext with
    | hex => exact cons_ne_nil _ _
    | decimal _ hfraction _ hdigit _ =>
      intro hnil
      obtain ⟨rfl, hnil⟩ := append_eq_nil_iff.1 hnil
      cases hfraction with
      | none => exact hdigit.elim (absurd rfl) (absurd rfl)
      | point => cases hnil
  · split at h
    · next hquote =>
      obtain ⟨⟨s, r'⟩, hstring, h⟩ := Except.of_bind_eq_ok h
      cases h
      obtain ⟨text, string, hcs, hpos, htext, rfl⟩ := scanStringFrom_ok hstring
      have hcs : cs = text ++ r.rest := hcs
      exact ⟨c :: text, by rw [hcs]; rfl, hpos, cons_ne_nil _ _, .str (by simpa using hquote) htext⟩
    · split at h
      · next hword =>
        have hc := continuesWord_of_beginsWord hword
        simp only [scanWord, Reader.span, takeWhile_cons_of_pos hc, dropWhile_cons_of_pos hc] at h
        cases h
        exact ⟨c :: cs.takeWhile continuesWord, by simp, rfl, cons_ne_nil _ _,
          .word hword (forall_mem_takeWhile _ _)⟩
      · obtain ⟨m, hm, hcs, hpos, rfl⟩ := scanMark_ok h
        obtain ⟨d, text, htext, -⟩ := marks_spelling hm
        refine ⟨m.toList, hcs, hpos, ?_, .mark hm⟩
        rw [htext]
        exact cons_ne_nil _ _

/-! ## The tokens of a text -/

/-- The characters from one offset to another. -/
def slice (cs : List Char) (i j : Nat) : List Char :=
  (cs.take j).drop i

/-- Tokens cover a text from an offset on. Each one covers the characters from `i` to `j`,
which are a text of it; what is skipped before it is blank or comment, as far as there are
any, and it is noted whether a line ends there. The last token is the end of the text, with
nothing but blanks and comments before it. -/
inductive Covers (cs : List Char) : Nat → List Token → Prop
  | eof {e : Nat} (hgap : Trivia true (cs.drop e)) : Covers cs e [⟨.eof, .behind cs, true⟩]
  | token {e i j : Nat} {k : TokenKind} {ts : List Token} (hle : e ≤ i) (hlt : i < j)
      (hend : j ≤ cs.length) (hgap : Trivia false (slice cs e i)) (hstops : IsSkipped (cs.drop i))
      (htext : IsTokenText (slice cs i j) k) (hrest : Covers cs j ts) :
      Covers cs e (⟨k, .behind (cs.take i), (slice cs e i).contains '\n'⟩ :: ts)

theorem Covers.cons {cs pre gap text rest : List Char} {k : TokenKind} {ts : List Token}
    (hne : text ≠ []) (hgap : Trivia false gap) (hstops : IsSkipped (text ++ rest))
    (htext : IsTokenText text k) (hcs : cs = pre ++ gap ++ text ++ rest)
    (hrest : Covers cs (pre ++ gap ++ text).length ts) :
    Covers cs pre.length (⟨k, Position.start.past (pre ++ gap), gap.contains '\n'⟩ :: ts) := by
  have hgap' : slice cs pre.length (pre ++ gap).length = gap := by
    rw [slice, hcs, append_assoc (pre ++ gap), take_left, drop_left]
  have hstops' : cs.drop (pre ++ gap).length = text ++ rest := by
    rw [hcs, append_assoc (pre ++ gap), drop_left]
  have htext' : slice cs (pre ++ gap).length (pre ++ gap ++ text).length = text := by
    rw [slice, hcs, take_left, drop_left]
  have hpos : Position.start.past (pre ++ gap) =
      .behind (cs.take (pre ++ gap).length) := by
    rw [Position.past_start, hcs, append_assoc (pre ++ gap), take_left]
  rw [hpos]
  conv => enter [3, 1, 3]; rw [← hgap']
  refine .token ?_ ?_ ?_ (hgap'.symm ▸ hgap) (hstops'.symm ▸ hstops) (htext'.symm ▸ htext) hrest
  · simp
  · simpa using length_pos_iff.2 hne
  · simp [hcs]

theorem tokensFrom_covers {cs pre rest : List Char} {fuel : Nat} {ts : List Token}
    (hcs : cs = pre ++ rest) (h : tokensFrom fuel ⟨rest, Position.start.past pre⟩ = .ok ts) :
    Covers cs pre.length ts := by
  induction fuel generalizing pre rest ts with
  | zero => cases h
  | succ fuel ih =>
    obtain ⟨⟨newline, cs', pos⟩, hskip, hscan⟩ := Except.of_bind_eq_ok h
    obtain ⟨gap, hrest, hpos, rfl, hstops, hgap⟩ := skipFrom_passes hskip
    clear h hskip
    rw [← Position.past_append] at hpos
    subst hpos hrest
    cases cs' with
    | nil =>
      cases hscan
      have hend : Position.start.past (pre ++ gap) = .behind cs := by
        rw [Position.past_start, hcs, append_nil]
      rw [hend]
      refine .eof ?_
      rw [hcs, drop_left, append_nil]
      exact hgap
    | cons c cs' =>
      obtain ⟨⟨k, r⟩, htoken, hscan⟩ := Except.of_bind_eq_ok hscan
      obtain ⟨ts, hts, hscan⟩ := Except.of_bind_eq_ok hscan
      cases hscan
      obtain ⟨text, htext, hpos, hne, hkind⟩ := scanToken_ok htoken
      have hcs' : cs = pre ++ gap ++ text ++ r.rest := by
        rw [hcs, htext, append_assoc (pre ++ gap), append_assoc]
      refine .cons hne hgap (htext ▸ hstops) hkind hcs' (ih hcs' ?_)
      rw [Position.past_append, ← hpos]
      exact hts

/-- **The lexer loses and invents nothing.** The tokens of a text cover it from its beginning
to its end. -/
theorem tokens_cover_text (s : String) (ts : List Token) (h : tokenize s = .ok ts) :
    Covers s.toList 0 ts :=
  tokensFrom_covers (nil_append _).symm h

/-- A number right before a field, a line comment and a block comment with a line end. -/
theorem tokens_cover_text_fields :
    tokenize "1.x //\n/*\n*/ y" = .ok [⟨.number 1, ⟨1, 1⟩, false⟩, ⟨.mark ".", ⟨1, 2⟩, false⟩,
      ⟨.word "x", ⟨1, 3⟩, false⟩, ⟨.word "y", ⟨3, 4⟩, true⟩, ⟨.eof, ⟨3, 5⟩, true⟩] ∧
    Covers "1.x //\n/*\n*/ y".toList 0 [⟨.number 1, ⟨1, 1⟩, false⟩, ⟨.mark ".", ⟨1, 2⟩, false⟩,
      ⟨.word "x", ⟨1, 3⟩, false⟩, ⟨.word "y", ⟨3, 4⟩, true⟩, ⟨.eof, ⟨3, 5⟩, true⟩] := by
  have h : tokenize "1.x //\n/*\n*/ y" = .ok [⟨.number 1, ⟨1, 1⟩, false⟩,
      ⟨.mark ".", ⟨1, 2⟩, false⟩, ⟨.word "x", ⟨1, 3⟩, false⟩, ⟨.word "y", ⟨3, 4⟩, true⟩,
      ⟨.eof, ⟨3, 5⟩, true⟩] := by
    rfl
  exact ⟨h, tokens_cover_text _ _ h⟩

end BarScript

import BarScript.TimeFrame
import Mathlib

/-!
# The texts of timeframes

`Denotes` is the grammar of timeframes, said without the parser. A text without its blanks
is read as what it denotes. If it denotes nothing it is refused and the refusal shows the
text, unless its last character is longer than one byte: the unit is split off by bytes,
and such a character is not refused but severed.
-/

namespace BarScript

open List
open Number (ofDigits)

namespace Text

/-- A text without the blanks at its ends. -/
def Trims (cs t : List Char) : Prop :=
  ∃ before after, cs = before ++ t ++ after ∧ (∀ c ∈ before ++ after, isBlank c = true) ∧
    (∀ c ∈ t.head?, isBlank c = false) ∧ ∀ c ∈ t.getLast?, isBlank c = false

theorem head?_dropWhile_isBlank (cs : List Char) :
    ∀ c ∈ (cs.dropWhile isBlank).head?, isBlank c = false := by
  intro c hc
  have hhead := head?_dropWhile_not isBlank cs
  rwa [hc] at hhead

theorem trims_trim (cs : List Char) : Trims cs (trim cs) := by
  let rest := cs.dropWhile isBlank
  have hrest : trim cs ++ (rest.reverse.takeWhile isBlank).reverse = rest := by
    unfold trim
    rw [← reverse_append, takeWhile_append_dropWhile, reverse_reverse]
  refine ⟨cs.takeWhile isBlank, (rest.reverse.takeWhile isBlank).reverse, ?_, ?_, ?_, ?_⟩
  · rw [append_assoc, hrest, takeWhile_append_dropWhile]
  · intro c hc
    rw [mem_append, mem_reverse] at hc
    exact hc.elim mem_takeWhile_imp mem_takeWhile_imp
  · intro c hc
    -- what is trimmed at the end leaves the first character as it is
    refine head?_dropWhile_isBlank cs c ?_
    rw [show cs.dropWhile isBlank = rest from rfl, ← hrest, head?_append, hc]
    rfl
  · intro c hc
    unfold trim at hc
    rw [getLast?_reverse] at hc
    exact head?_dropWhile_isBlank rest.reverse c hc

end Text

namespace TimeFrame

/-- The timeframe that a text without blanks at its ends denotes: that of an alias, or of
an optional plus sign, digits and the letter of a unit. -/
inductive Denotes : List Char → TimeFrame → Prop
  | day : Denotes ['D'] ⟨1, .day⟩
  | week : Denotes ['W'] ⟨1, .week⟩
  | count {sign digits : List Char} (unit : TimeUnit) (hsign : sign = [] ∨ sign = ['+'])
      (hne : digits ≠ []) (hdigits : ∀ c ∈ digits, '0' ≤ c ∧ c ≤ '9')
      (hleast : 1 ≤ ofDigits digits) (hmost : ofDigits digits ≤ 4294967295) :
      Denotes (sign ++ digits ++ [unit.letter]) ⟨ofDigits digits, unit⟩

/-- A text whose last character is longer than one byte. -/
def Severed (t : List Char) : Prop :=
  ∃ c ∈ t.getLast?, 1 < c.utf8Size

theorem ofLetter?_eq_some_iff {c : Char} {unit : TimeUnit} :
    TimeUnit.ofLetter? c = some unit ↔ c = unit.letter := by
  unfold TimeUnit.ofLetter?
  cases unit <;> grind [TimeUnit.letter]

theorem isDigit_eq_true_iff {c : Char} : c.isDigit = true ↔ '0' ≤ c ∧ c ≤ '9' := by
  simp [Char.isDigit, Char.le_def]

theorem readCount?_eq_some_iff {cs : List Char} {n : Nat} : readCount? cs = some n ↔
    ∃ sign digits, cs = sign ++ digits ∧ (sign = [] ∨ sign = ['+']) ∧ digits ≠ [] ∧
      (∀ c ∈ digits, '0' ≤ c ∧ c ≤ '9') ∧ 1 ≤ n ∧ n ≤ maxCount ∧ n = ofDigits digits := by
  have hread : ∀ ds : List Char, (if ds.isEmpty || !ds.all Char.isDigit then none
      else if 1 ≤ ofDigits ds && ofDigits ds ≤ maxCount then
        some (ofDigits ds) else none) = some n ↔ ds ≠ [] ∧
      (∀ c ∈ ds, '0' ≤ c ∧ c ≤ '9') ∧ 1 ≤ n ∧ n ≤ maxCount ∧ n = ofDigits ds := by
    intro ds
    simp only [← isDigit_eq_true_iff]
    grind
  unfold readCount?
  split
  · rename_i rest
    refine (hread rest).trans ⟨fun h => ⟨['+'], rest, rfl, .inr rfl, h⟩, ?_⟩
    rintro ⟨sign, digits, heq, rfl | rfl, h⟩
    · -- a plus sign is no digit
      obtain rfl : '+' :: rest = digits := heq
      exact absurd (h.2.1 '+' mem_cons_self).1 (by decide)
    · obtain rfl : rest = digits := by simpa using heq
      exact h
  · rename_i hplus
    refine (hread cs).trans ⟨fun h => ⟨[], cs, rfl, .inl rfl, h⟩, ?_⟩
    rintro ⟨sign, digits, rfl, rfl | rfl, h⟩
    · exact h
    · exact absurd rfl (hplus digits)

theorem denotes_of_readCount? {cs : List Char} {c : Char} {n : Nat} {unit : TimeUnit}
    (hn : readCount? cs = some n) (hunit : TimeUnit.ofLetter? c = some unit) :
    Denotes (cs ++ [c]) ⟨n, unit⟩ := by
  obtain ⟨sign, digits, rfl, hsign, hne, hdigits, hleast, hmost, rfl⟩ :=
    readCount?_eq_some_iff.1 hn
  rw [ofLetter?_eq_some_iff.1 hunit]
  exact .count unit hsign hne hdigits hleast hmost

theorem ofTrimmed_of_denotes {t : List Char} {tf : TimeFrame} (h : Denotes t tf) :
    ofTrimmed t = .ok tf := by
  cases h with
  | day | week => rfl
  | @count sign digits unit hsign hne hdigits hleast hmost =>
    have hcount : readCount? (sign ++ digits) = some (ofDigits digits) :=
      readCount?_eq_some_iff.2 ⟨sign, digits, rfl, hsign, hne, hdigits, hleast, hmost, rfl⟩
    have hsize : unit.letter.utf8Size = 1 := by cases unit <;> decide
    -- an alias ends in no letter of a unit
    have hlast : ∀ c : Char, c ≠ unit.letter → sign ++ digits ++ [unit.letter] ≠ [c] := by
      intro c hc heq
      exact hc (by simpa using (congrArg getLast? heq).symm)
    have hD : 'D' ≠ unit.letter := by cases unit <;> decide
    have hW : 'W' ≠ unit.letter := by cases unit <;> decide
    unfold ofTrimmed
    rw [if_neg (hlast _ hD), if_neg (hlast _ hW), getLast?_concat]
    simp [hsize, hcount, ofLetter?_eq_some_iff.2 rfl]

/-- What a text is read as if it denotes nothing. -/
theorem ofTrimmed_cases (t : List Char) : (∃ tf, ofTrimmed t = .ok tf ∧ Denotes t tf) ∨
    Severed t ∧ ofTrimmed t = .error .severed ∨
    ¬ Severed t ∧ ofTrimmed t = .error (.invalid (String.ofList t)) := by
  unfold ofTrimmed
  split
  · rename_i h
    exact .inl ⟨_, rfl, h ▸ .day⟩
  split
  · rename_i h
    exact .inl ⟨_, rfl, h ▸ .week⟩
  cases hlast : t.getLast? with
  | none =>
    refine .inr (.inr ⟨?_, rfl⟩)
    rintro ⟨c, hc, -⟩
    cases hlast.symm.trans hc
  | some c =>
    dsimp only
    split
    · exact .inr (.inl ⟨⟨c, hlast, ‹_›⟩, rfl⟩)
    · rename_i hsize
      split
      · rename_i n unit hn hunit
        have ht : t = t.dropLast ++ [c] := (dropLast_append_getLast? c hlast).symm
        refine .inl ⟨_, rfl, ?_⟩
        rw [ht]
        exact denotes_of_readCount? hn hunit
      · refine .inr (.inr ⟨?_, rfl⟩)
        rintro ⟨d, hd, hlong⟩
        cases hlast.symm.trans hd
        exact hsize hlong

theorem Denotes.not_severed {t : List Char} {tf : TimeFrame} (h : Denotes t tf) : ¬ Severed t := by
  rintro ⟨c, hc, hlong⟩
  cases h with
  | day | week =>
    cases hc
    exact absurd hlong (by decide)
  | count unit =>
    rw [getLast?_concat] at hc
    cases hc
    exact absurd hlong (by cases unit <;> decide)

/-- **A text is read as what it denotes.** If it denotes nothing, it is refused with an error
that shows it, unless its last character is longer than one byte. -/
theorem timeframe_is_what_text_denotes (s : String) : ∃ t, Text.Trims s.toList t ∧
    (∀ tf, parse s = .ok tf ↔ Denotes t tf) ∧ (parse s = .error .severed ↔ Severed t) ∧
    (parse s = .error (.invalid (String.ofList t)) ↔ ¬ Severed t ∧ ∀ tf, ¬ Denotes t tf) := by
  refine ⟨Text.trim s.toList, Text.trims_trim _, ?_⟩
  unfold parse
  generalize Text.trim s.toList = t
  have hread : ∀ tf, Denotes t tf → ofTrimmed t = .ok tf := fun _ => ofTrimmed_of_denotes
  rcases ofTrimmed_cases t with ⟨tf, htf, hd⟩ | ⟨hs, he⟩ | ⟨hs, he⟩
  · have hs := hd.not_severed
    grind
  · grind
  · grind

theorem long_letter_is_severed :
    parse "5é" ≠ .error (.invalid "5é") ∧ ∀ tf, parse "5é" ≠ .ok tf := by
  have h : parse "5é" = .error .severed := by rfl
  rw [h]
  exact ⟨by simp, by simp⟩

end TimeFrame

end BarScript

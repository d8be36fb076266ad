import BarScript.Proofs.Durations

/-!
# The names of timeframes

The name of a timeframe is the text that denotes it without a sign, leading zeros or blanks.
It reads back as the timeframe, with blanks around it too, so two timeframes have one name
only if they are one.
-/

namespace BarScript

open List

namespace Text

theorem dropWhile_isBlank_append {before t : List Char} (hbefore : ∀ c ∈ before, isBlank c = true)
    (ht : ∀ c ∈ t.head?, isBlank c = false) : (before ++ t).dropWhile isBlank = t := by
  rw [dropWhile_append_of_pos hbefore]
  cases t with
  | nil => rfl
  | cons c rest => exact dropWhile_cons_of_neg (by simp [ht c rfl])

/-- A text that begins and ends without a blank is all that is left of it between blanks. -/
theorem trim_eq_of_trims {cs t : List Char} (h : Trims cs t) (hne : t ≠ []) : trim cs = t := by
  obtain ⟨before, after, rfl, hblank, hhead, hlast⟩ := h
  obtain ⟨hbefore, hafter⟩ := forall_mem_append.1 hblank
  unfold trim
  rw [append_assoc, dropWhile_isBlank_append hbefore, reverse_append,
    dropWhile_isBlank_append, reverse_reverse]
  · simpa using hafter
  · simpa using hlast
  · intro c hc
    rw [head?_append_of_ne_nil _ hne] at hc
    exact hhead c hc

end Text

namespace TimeFrame

theorem name_toList (tf : TimeFrame) :
    tf.name.toList = Nat.toDigits 10 tf.count ++ [tf.unit.letter] := by
  unfold name
  rw [String.toList_append, Nat.repr_eq_ofList_toDigits, String.toList_ofList]
  simp

theorem ofDigits_toDigits (n : Nat) : Number.ofDigits (Nat.toDigits 10 n) = n :=
  Nat.ofDigitChars_ten_toDigits

theorem denotes_name {tf : TimeFrame} (hleast : 1 ≤ tf.count) (hmost : tf.count ≤ maxCount) :
    Denotes tf.name.toList tf := by
  have hdigits : ∀ c ∈ Nat.toDigits 10 tf.count, '0' ≤ c ∧ c ≤ '9' := fun c hc =>
    isDigit_eq_true_iff.1 (Nat.isDigit_of_mem_toDigits (by decide) (by decide) hc)
  have hcount := ofDigits_toDigits tf.count
  have h := Denotes.count tf.unit (.inl rfl) Nat.toDigits_ne_nil hdigits
    (by rwa [hcount]) (by rwa [hcount])
  rw [hcount] at h
  rw [name_toList]
  exact h

theorem Denotes.ne_nil {t : List Char} {tf : TimeFrame} (h : Denotes t tf) : t ≠ [] := by
  cases h <;> simp

theorem count_of_denotes {t : List Char} {tf : TimeFrame} (h : Denotes t tf) :
    1 ≤ tf.count ∧ tf.count ≤ maxCount := by
  cases h with
  | day | week => decide
  | count unit hsign hne hdigits hleast hmost => exact ⟨hleast, hmost⟩

theorem Denotes.not_blank {t : List Char} {tf : TimeFrame} (h : Denotes t tf) :
    ∀ c ∈ t, Text.isBlank c = false := by
  have hink : ∀ c : Char, '+' ≤ c ∧ c ≤ 'w' → Text.isBlank c = false := by
    rintro c ⟨hleast, hmost⟩
    have hleast : 43 ≤ c.toNat := UInt32.le_iff_toNat_le.1 hleast
    have hmost : c.toNat ≤ 119 := UInt32.le_iff_toNat_le.1 hmost
    unfold Text.isBlank
    rw [if_pos (by omega)]
    simp
    omega
  intro c hc
  apply hink
  cases h with
  | day | week =>
    rw [mem_singleton.1 hc]
    decide
  | @count sign digits unit hsign _ hdigits =>
    rw [mem_append, mem_append, mem_singleton] at hc
    rcases hc with (hc | hc) | rfl
    · rcases hsign with rfl | rfl
      · cases hc
      · rw [mem_singleton.1 hc]
        decide
    · exact ⟨le_trans (by decide) (hdigits c hc).1, le_trans (hdigits c hc).2 (by decide)⟩
    · cases unit <;> decide

/-- A text that denotes a timeframe is read as the timeframe, with blanks around it too. -/
theorem parse_of_denotes {t : List Char} {tf : TimeFrame} (h : Denotes t tf) {s : String}
    {before after : List Char} (hs : s.toList = before ++ t ++ after)
    (hblank : ∀ c ∈ before ++ after, Text.isBlank c = true) : parse s = .ok tf := by
  have htrims : Text.Trims s.toList t := ⟨before, after, hs, hblank,
    fun c hc => h.not_blank c (mem_of_mem_head? hc),
    fun c hc => h.not_blank c (mem_of_getLast? hc)⟩
  unfold parse
  rw [Text.trim_eq_of_trims htrims h.ne_nil]
  exact ofTrimmed_of_denotes h

theorem parse_name {tf : TimeFrame} (hleast : 1 ≤ tf.count) (hmost : tf.count ≤ maxCount)
    (before after : String)
    (hblank : ∀ c ∈ before.toList ++ after.toList, Text.isBlank c = true) :
    parse (before ++ tf.name ++ after) = .ok tf :=
  parse_of_denotes (denotes_name hleast hmost) (by simp) hblank

/-- **The name of a timeframe reads back as the timeframe**, and it is the one name of all
texts that are read as the timeframe. -/
theorem names_read_back :
    (∀ tf : TimeFrame, 1 ≤ tf.count → tf.count ≤ maxCount → ∀ before after : String,
      (∀ c ∈ before.toList ++ after.toList, Text.isBlank c = true) →
      parse (before ++ tf.name ++ after) = .ok tf) ∧
    (∀ s tf, parse s = .ok tf → parse tf.name = .ok tf) ∧
    ∀ s s' tf tf', parse s = .ok tf → parse s' = .ok tf' → (tf.name = tf'.name ↔ tf = tf') := by
  have hread : ∀ s tf, parse s = .ok tf → parse tf.name = .ok tf := by
    intro s tf h
    rcases ofTrimmed_cases (Text.trim s.toList) with ⟨tf', htf', hd⟩ | ⟨-, he⟩ | ⟨-, he⟩
    · cases htf'.symm.trans h
      obtain ⟨hleast, hmost⟩ := count_of_denotes hd
      simpa using parse_name hleast hmost "" "" (by simp)
    · cases he.symm.trans h
    · cases he.symm.trans h
  refine ⟨fun _ => parse_name, hread, fun s s' tf tf' h h' => ⟨fun heq => ?_, congrArg name⟩⟩
  have htf := hread s tf h
  rw [heq, hread s' tf' h'] at htf
  cases htf
  rfl

end TimeFrame

end BarScript

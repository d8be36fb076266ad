import BarScript.Proofs.Tokens.Covering

/-!
# String literals

The printer escapes a string in one way and the lexer reads more ways than that. Every
printed literal is read back as its string. In the other direction, an escape by number
gives a unit of UTF-16, and a literal made of such escapes is read as the string that the
units encode, if they encode one. A leading surrogate takes whatever unit follows as its
second half, so the lexer also accepts some units that encode nothing.
-/

namespace BarScript

open List

/-- A text that is scanned as one token is read as that token. -/
theorem tokenize_of_scanToken {c : Char} {text : List Char} {k : TokenKind} {p : Position}
    (hstops : IsSkipped (c :: text)) (h : scanToken c ⟨c :: text, .start⟩ = .ok (k, ⟨[], p⟩)) :
    tokenize (String.ofList (c :: text)) = .ok [⟨k, .start, false⟩, ⟨.eof, p, true⟩] := by
  obtain ⟨hblank, hslash⟩ := hstops c rfl
  have hskip : (Reader.ofString (String.ofList (c :: text))).skip =
      .ok (false, ⟨c :: text, .start⟩) := by
    unfold Reader.ofString Reader.skip
    rw [String.toList_ofList]
    refine skipFrom_inner hblank ?_
    by_cases hc : c = '/'
    · exact .inr (hslash hc)
    · exact .inl hc
  unfold tokenize
  rw [tokensFrom, hskip]
  show (scanToken c _ >>= _) = _
  rw [h]
  simp only [String.length_ofList, length_cons]
  rfl

/-- **String literals are read back**, whatever characters they hold. -/
theorem printed_strings_read_back (s : String) (depth : Nat) :
    ∃ p, tokenize ((Expr.str s).text depth) = .ok [⟨.str s, .start, false⟩, ⟨.eof, p, true⟩] := by
  obtain ⟨c, cs, hspelling, hscan⟩ := (TokenKind.legible_str s []).scan
  have htext : ((Expr.str s).text depth).toList = c :: cs := hspelling
  rw [append_nil, hspelling] at hscan
  obtain ⟨p, hscan⟩ := hscan .start
  have hquote : c = '"' := (cons.inj (hspelling.symm.trans (Json.toList_literal s))).1
  have hstops : IsSkipped (c :: cs) := by
    rintro _ ⟨⟩
    subst hquote
    exact ⟨by decide, fun h => absurd h (by decide)⟩
  have htoken := tokenize_of_scanToken hstops hscan
  rw [← htext, String.ofList_toList] at htoken
  exact ⟨p, htoken⟩

/-! ## Units of UTF-16 -/

namespace Utf16

def IsTrailing (n : Nat) : Prop := 0xdc00 ≤ n ∧ n < 0xe000

def units (c : Char) : List Nat :=
  if c.toNat < 0x10000 then [c.toNat]
  else [0xd800 + (c.toNat - 0x10000) / 0x400, 0xdc00 + (c.toNat - 0x10000) % 0x400]

def encode (s : String) : List Nat :=
  s.toList.flatMap units

theorem units_ofNat (hlt : n < 0x10000) (h : n.isValidChar) : units (Char.ofNat n) = [n] := by
  rw [units, Char.toNat_ofNat, if_pos h, if_pos hlt]

/-- A pair of surrogates is folded into the character it encodes. -/
theorem folded_pair (hu : IsLeading u) (hv : IsTrailing v) :
    (folded u v).isValidChar ∧ units (Char.ofNat (folded u v)) = [u, v] := by
  obtain ⟨hu, hu'⟩ := hu
  obtain ⟨hv, hv'⟩ := hv
  have hvalid : (folded u v).isValidChar := by
    refine .inr ⟨?_, ?_⟩ <;> unfold folded <;> omega
  refine ⟨hvalid, ?_⟩
  rw [units, Char.toNat_ofNat, if_pos hvalid, if_neg (by unfold folded; omega)]
  have hfirst : 0xd800 + (folded u v - 0x10000) / 0x400 = u := by
    unfold folded
    omega
  have hsecond : 0xdc00 + (folded u v - 0x10000) % 0x400 = v := by
    unfold folded
    omega
  rw [hfirst, hsecond]

/-- How the units of a string begin: with a unit that is no surrogate, or with a pair. -/
theorem flatMap_units_eq_cons {cs : List Char}
    (h : u :: us = cs.flatMap units) : ∃ c cs', cs = c :: cs' ∧
      (¬ IsLeading u ∧ u.isValidChar ∧ c = Char.ofNat u ∧ us = cs'.flatMap units ∨
        IsLeading u ∧ ∃ v us', IsTrailing v ∧ c = Char.ofNat (folded u v) ∧ us = v :: us' ∧
          us' = cs'.flatMap units) := by
  cases cs with
  | nil => cases h
  | cons c cs =>
    refine ⟨c, cs, rfl, ?_⟩
    rw [flatMap_cons, units] at h
    have hvalid : c.toNat.isValidChar := c.valid
    split at h
    · obtain ⟨rfl, rfl⟩ := cons.inj h
      exact .inl ⟨fun hl => hl.not_isValidChar hvalid, hvalid, (Char.ofNat_toNat c).symm, rfl⟩
    · obtain ⟨rfl, rfl⟩ := cons.inj h
      have hlt : c.toNat < 0x110000 := by
        rcases hvalid with h | h <;> omega
      refine .inr ⟨⟨by omega, by omega⟩, _, _, ⟨by omega, by omega⟩, ?_, rfl, rfl⟩
      have hcode : folded (0xd800 + (c.toNat - 0x10000) / 0x400)
          (0xdc00 + (c.toNat - 0x10000) % 0x400) = c.toNat := by
        unfold folded
        omega
      rw [hcode, Char.ofNat_toNat]

end Utf16

/-! ## Literals made of escapes -/

/-- Four hexadecimal digits, the number of an escape. -/
structure UnitDigits where
  digits : List Char
  length_eq : digits.length = 4
  hex : digits.all isHexDigit = true

namespace UnitDigits

def unit (e : UnitDigits) : Nat := ofHexDigits e.digits

def text (e : UnitDigits) : List Char := '\\' :: 'u' :: e.digits

theorem hexDigitValue_lt (h : isHexDigit c = true) : hexDigitValue c < 16 := by
  have hcodes : '0'.toNat = 48 ∧ '9'.toNat = 57 ∧ 'a'.toNat = 97 ∧ 'f'.toNat = 102 ∧
    'A'.toNat = 65 ∧ 'F'.toNat = 70 := ⟨rfl, rfl, rfl, rfl, rfl, rfl⟩
  simp only [isHexDigit, Bool.or_eq_true, Bool.and_eq_true, decide_eq_true_eq,
    Char.isDigit_iff_toNat, Char.le_def, UInt32.le_iff_toNat_le, Char.toNat_val] at h
  simp only [hexDigitValue, Char.isDigit_iff_toNat, Char.le_def, UInt32.le_iff_toNat_le,
    Char.toNat_val]
  split_ifs <;> omega

theorem unit_lt (e : UnitDigits) : e.unit < 0x10000 := by
  obtain ⟨ds, hlength, hhex⟩ := e
  obtain ⟨a, b, c, d, rfl⟩ : ∃ a b c d, ds = [a, b, c, d] := by
    match ds, hlength with
    | [a, b, c, d], _ => exact ⟨a, b, c, d, rfl⟩
  simp only [all_cons, all_nil, Bool.and_true, Bool.and_eq_true] at hhex
  have ha := hexDigitValue_lt hhex.1
  have hb := hexDigitValue_lt hhex.2.1
  have hc := hexDigitValue_lt hhex.2.2.1
  have hd := hexDigitValue_lt hhex.2.2.2
  simp only [unit, ofHexDigits, foldl_cons, foldl_nil]
  omega

theorem length_le_text (es : List UnitDigits) : es.length ≤ (es.flatMap text).length := by
  induction es with
  | nil => exact Nat.le_refl 0
  | cons e es ih =>
    simp only [flatMap_cons, text, length_append, length_cons]
    omega

end UnitDigits

/-- A pair of units that folding does not mistake for a character: if the first one leads,
the second one trails, or both together give no code point. -/
def HonestPair (u v : Nat) : Prop :=
  IsLeading u → ¬ Utf16.IsTrailing v → ¬ (folded u v).isValidChar

/-- A string literal made of escapes by number. -/
def escapedLiteral (quote : Char) (es : List UnitDigits) : String :=
  String.ofList (quote :: (es.flatMap UnitDigits.text ++ [quote]))

section Scanning

variable {quote : Char} {start pos : Position} {fuel : Nat} {acc cs : List Char}

theorem scanStringFrom_escape (hquote : quote ≠ '\\') :
    scanStringFrom quote start (fuel + 1) acc ⟨'\\' :: 'u' :: cs, pos⟩ =
      (scanEscape (pos.next '\\') ⟨cs, (pos.next '\\').next 'u'⟩ >>= fun x =>
        scanStringFrom quote start fuel (x.1 :: acc) x.2) := by
  have hquote := beq_false_of_ne hquote.symm
  simp only [scanStringFrom, hquote, Reader.next]
  cases scanEscape (pos.next '\\') ⟨cs, (pos.next '\\').next 'u'⟩ <;> rfl

/-- What reading units gives: the string that they encode, or if they encode none and no
two of them are mistaken for a character, an error. -/
def Decodes (us : List Nat) (acc : List Char) (result : Scan (String × Reader)) : Prop :=
  (∀ s : List Char, us = s.flatMap Utf16.units →
    ∃ pos, result = .ok (String.ofList (acc.reverse ++ s), ⟨[], pos⟩)) ∧
  ((∀ s : List Char, us ≠ s.flatMap Utf16.units) → us.IsChain HonestPair →
    ∃ pos, result = .error (.parse .malformedEscape pos))

variable {u v : Nat} {us : List Nat} {result : Scan (String × Reader)}

theorem Decodes.nil (pos : Position) :
    Decodes [] acc (.ok (String.ofList acc.reverse, ⟨[], pos⟩)) := by
  refine ⟨fun s hs => ?_, fun hs => absurd rfl (hs [])⟩
  cases s with
  | nil => exact ⟨pos, by rw [append_nil]⟩
  | cons c s =>
    rw [flatMap_cons, Utf16.units] at hs
    split at hs <;> cases hs

/-- A character in front of units that have been read. -/
theorem Decodes.cons (hc : Utf16.units c ++ us = ws)
    (hbegin : ∀ s, ws = s.flatMap Utf16.units → ∃ s', s = c :: s' ∧ us = s'.flatMap Utf16.units)
    (hchain : ws.IsChain HonestPair → us.IsChain HonestPair) (h : Decodes us (c :: acc) result) :
    Decodes ws acc result := by
  refine ⟨fun s hs => ?_, fun hs hws => h.2 (fun s hus => hs (c :: s) ?_) (hchain hws)⟩
  · obtain ⟨s, rfl, hus⟩ := hbegin s hs
    simpa using h.1 s hus
  · rw [← hc, flatMap_cons, hus]

theorem Decodes.one (hu : ¬ IsLeading u) (hvalid : u.isValidChar) (hlt : u < 0x10000)
    (h : Decodes us (Char.ofNat u :: acc) result) : Decodes (u :: us) acc result := by
  have hunits := Utf16.units_ofNat hlt hvalid
  refine h.cons (by rw [hunits]; rfl) (fun s hs => ?_) IsChain.tail
  obtain ⟨c, s, rfl, ⟨-, -, rfl, hus⟩ | ⟨hleading, -⟩⟩ := Utf16.flatMap_units_eq_cons hs
  · exact ⟨s, rfl, hus⟩
  · exact absurd hleading hu

theorem Decodes.pair (hu : IsLeading u) (hv : Utf16.IsTrailing v)
    (h : Decodes us (Char.ofNat (folded u v) :: acc) result) :
    Decodes (u :: v :: us) acc result := by
  have hunits : Utf16.units (Char.ofNat (folded u v)) ++ us = u :: v :: us := by
    rw [(Utf16.folded_pair hu hv).2, cons_append, cons_append, nil_append]
  have hchain : (u :: v :: us).IsChain HonestPair → us.IsChain HonestPair := fun h => h.tail.tail
  refine h.cons hunits (fun s hs => ?_) hchain
  obtain ⟨c, s, rfl, ⟨hleading, -⟩ | ⟨-, v', us', -, hc, hus, hus'⟩⟩ :=
    Utf16.flatMap_units_eq_cons hs
  · exact absurd hu hleading
  · obtain ⟨rfl, rfl⟩ := cons.inj hus
    exact ⟨s, by rw [hc], hus'⟩

theorem Decodes.refused (hnone : ∀ s : List Char, us ≠ s.flatMap Utf16.units)
    (h : us.IsChain HonestPair → ∃ pos, result = .error (.parse .malformedEscape pos)) :
    Decodes us acc result :=
  ⟨fun s hs => absurd hs (hnone s), fun _ => h⟩

theorem charOf_eq_error (h : ¬ n.isValidChar) :
    charOf start n = .error (.parse .malformedEscape start) := if_neg h

/-- Units are read one escape at a time, a leading surrogate together with the next one. -/
theorem scanStringFrom_units (hquote : quote ≠ '\\') : ∀ (es : List UnitDigits) {fuel : Nat}
    {acc : List Char} {pos : Position}, es.length < fuel → Decodes (es.map UnitDigits.unit) acc
      (scanStringFrom quote start fuel acc ⟨es.flatMap UnitDigits.text ++ [quote], pos⟩)
  | [], fuel, acc, pos, hfuel => by
    obtain ⟨fuel, rfl⟩ := Nat.exists_eq_add_one.2 hfuel
    simp only [scanStringFrom, flatMap_nil, nil_append, BEq.rfl, if_true]
    exact Decodes.nil _
  | e :: es, fuel, acc, pos, hfuel => by
    obtain ⟨fuel, rfl⟩ := Nat.exists_eq_add_one.2 (Nat.zero_lt_of_lt hfuel)
    have htext : (e :: es).flatMap UnitDigits.text ++ [quote] =
      '\\' :: 'u' :: (e.digits ++ (es.flatMap UnitDigits.text ++ [quote])) := by
        simp [UnitDigits.text]
    rw [htext, scanStringFrom_escape hquote, scanEscape_append e.length_eq e.hex, map_cons]
    by_cases hleading : IsLeading e.unit
    · cases es with
      | nil =>
        have hlast : ¬ ['\\', 'u'] <+: [].flatMap UnitDigits.text ++ [quote] := by
          rintro ⟨_, h⟩
          exact hquote (cons.inj h).1.symm
        have hchar : charOf (pos.next '\\') (ofHexDigits e.digits) = _ :=
          charOf_eq_error hleading.not_isValidChar
        rw [if_neg fun h => hlast h.2, hchar]
        refine Decodes.refused (fun s hs => ?_) fun _ => ⟨pos.next '\\', rfl⟩
        obtain ⟨_, _, -, ⟨h, -⟩ | ⟨-, _, _, -, -, h, -⟩⟩ := Utf16.flatMap_units_eq_cons hs
        · exact h hleading
        · cases h
      | cons e' es =>
        have hnext : (e' :: es).flatMap UnitDigits.text ++ [quote] =
          '\\' :: 'u' :: (e'.digits ++ (es.flatMap UnitDigits.text ++ [quote])) := by
            simp [UnitDigits.text]
        rw [hnext, if_pos ⟨hleading, by simp⟩, map_cons]
        simp only [Reader.drop, drop_succ_cons, drop_zero, scanUnit_append e'.length_eq e'.hex]
        rw [Scan.ok_bind]
        by_cases htrailing : Utf16.IsTrailing e'.unit
        · have hchar : charOf (pos.next '\\') (folded (ofHexDigits e.digits)
              (ofHexDigits e'.digits)) =
              .ok (Char.ofNat (folded e.unit e'.unit)) :=
            if_pos (Utf16.folded_pair hleading htrailing).1
          rw [hchar, Scan.ok_bind, pure_bind]
          dsimp only
          refine Decodes.pair hleading htrailing ?_
          exact scanStringFrom_units hquote es (by simp only [length_cons] at hfuel; omega)
        · refine Decodes.refused (fun s hs => ?_) fun hchain => ⟨pos.next '\\', ?_⟩
          · obtain ⟨_, _, -, ⟨h, -⟩ | ⟨-, _, _, h, -, hus, -⟩⟩ := Utf16.flatMap_units_eq_cons hs
            · exact h hleading
            · obtain ⟨rfl, -⟩ := cons.inj hus
              exact htrailing h
          · have hchar : charOf (pos.next '\\')
                (folded (ofHexDigits e.digits) (ofHexDigits e'.digits)) = _ :=
              charOf_eq_error ((isChain_cons_cons.1 hchain).1 hleading htrailing)
            rw [hchar]
            rfl
    · rw [if_neg fun h => hleading h.1]
      by_cases hvalid : e.unit.isValidChar
      · have hchar : charOf (pos.next '\\') (ofHexDigits e.digits) = .ok (Char.ofNat e.unit) :=
          if_pos hvalid
        rw [hchar]
        exact Decodes.one hleading hvalid e.unit_lt
          (scanStringFrom_units hquote es (Nat.lt_of_succ_lt_succ hfuel))
      · refine Decodes.refused (fun s hs => ?_) fun _ => ⟨pos.next '\\', ?_⟩
        · obtain ⟨_, _, -, ⟨-, h, -⟩ | ⟨h, -⟩⟩ := Utf16.flatMap_units_eq_cons hs
          · exact hvalid h
          · exact hleading h
        · have hchar : charOf (pos.next '\\') (ofHexDigits e.digits) = _ := charOf_eq_error hvalid
          rw [hchar]
          rfl

end Scanning

/-- A literal is read as one string token, or not at all. -/
theorem tokenize_escapedLiteral (hquote : quote = '"' ∨ quote = '\'')
    (es : List UnitDigits) : ∃ fuel fuel', es.length < fuel ∧ tokenize (escapedLiteral quote es) =
        (scanStringFrom quote .start fuel [] ⟨es.flatMap UnitDigits.text ++ [quote],
          Position.start.next quote⟩ >>= fun x => tokensFrom (fuel' + 1) x.2 >>= fun rest =>
            pure (⟨.str x.1, .start, false⟩ :: rest)) := by
  have hskip : (Reader.ofString (escapedLiteral quote es)).skip =
      .ok (false, ⟨quote :: (es.flatMap UnitDigits.text ++ [quote]), .start⟩) := by
    unfold Reader.ofString Reader.skip escapedLiteral
    rw [String.toList_ofList]
    rcases hquote with rfl | rfl <;> exact skipFrom_inner (by decide) (.inl (by decide))
  have hlength : (escapedLiteral quote es).length =
      (es.flatMap UnitDigits.text ++ [quote]).length + 1 := by
    rw [escapedLiteral, String.length_ofList, length_cons]
  have hle := UnitDigits.length_le_text es
  refine ⟨(quote :: (es.flatMap UnitDigits.text ++ [quote])).length + 1,
    (es.flatMap UnitDigits.text ++ [quote]).length, ?_, ?_⟩
  · simp only [length_cons, length_append]
    omega
  · unfold tokenize
    rw [hlength, tokensFrom, hskip, Scan.ok_bind]
    show (scanToken quote _ >>= _) = _
    have hstring : scanToken quote ⟨quote :: (es.flatMap UnitDigits.text ++ [quote]), .start⟩ =
        scanString quote ⟨quote :: (es.flatMap UnitDigits.text ++ [quote]), .start⟩ := by
      rcases hquote with rfl | rfl <;> rfl
    rw [hstring, scanString, bind_assoc]
    rfl

/-- **Unicode escapes are decoded as UTF-16.** A literal made of escapes is read as the
string that its units encode. If they encode none, the literal is refused, unless a leading
surrogate forms a code point with a unit that is no trailing surrogate. -/
theorem escapes_decode_as_utf16 (hquote : quote = '"' ∨ quote = '\'') (es : List UnitDigits) :
    (∀ s : String, es.map UnitDigits.unit = Utf16.encode s →
      ∃ p, tokenize (escapedLiteral quote es) = .ok [⟨.str s, .start, false⟩, ⟨.eof, p, true⟩]) ∧
    ((∀ s : String, es.map UnitDigits.unit ≠ Utf16.encode s) →
      (es.map UnitDigits.unit).IsChain HonestPair →
      ∃ p, tokenize (escapedLiteral quote es) = .error (.parse .malformedEscape p)) := by
  obtain ⟨fuel, fuel', hfuel, htokens⟩ := tokenize_escapedLiteral hquote es
  have hslash : quote ≠ '\\' := by
    rcases hquote with rfl | rfl <;> decide
  have hdecodes : Decodes _ [] (scanStringFrom quote .start fuel []
      ⟨es.flatMap UnitDigits.text ++ [quote], Position.start.next quote⟩) :=
    scanStringFrom_units hslash es hfuel
  refine ⟨fun s hs => ?_, fun hs hchain => ?_⟩
  · obtain ⟨pos, hscan⟩ := hdecodes.1 s.toList hs
    rw [htokens, hscan, Scan.ok_bind]
    exact ⟨pos, by simp; rfl⟩
  · have hnone : ∀ cs : List Char, es.map UnitDigits.unit ≠ cs.flatMap Utf16.units := fun cs h =>
      hs (String.ofList cs) (by rw [Utf16.encode, String.toList_ofList, h])
    obtain ⟨pos, hscan⟩ := hdecodes.2 hnone hchain
    rw [htokens, hscan]
    exact ⟨pos, rfl⟩

def UnitDigits.ofChars (a b c d : Char) (h : [a, b, c, d].all isHexDigit = true) : UnitDigits :=
  ⟨[a, b, c, d], rfl, h⟩

/-- The clef is a pair of surrogates, and half of it is no character. -/
theorem escapes_decode_as_utf16_clef :
    (∃ p, tokenize (escapedLiteral '"'
      [.ofChars 'd' '8' '3' '4' rfl, .ofChars 'D' 'D' '1' 'E' rfl]) =
      .ok [⟨.str "𝄞", .start, false⟩, ⟨.eof, p, true⟩]) ∧
    ∃ p, tokenize (escapedLiteral '\'' [.ofChars 'd' '8' '3' '4' rfl]) =
      .error (.parse .malformedEscape p) := by
  refine ⟨(escapes_decode_as_utf16 (.inl rfl) _).1 "𝄞" (by decide), ?_⟩
  refine (escapes_decode_as_utf16 (.inr rfl) _).2 (fun s hs => ?_) (.singleton _)
  obtain ⟨_, _, -, ⟨h, -⟩ | ⟨-, _, _, -, -, h, -⟩⟩ := Utf16.flatMap_units_eq_cons hs
  · exact h (by decide)
  · cases h

/-- A leading surrogate before a unit that is no surrogate is read as a character. -/
theorem false_pair_is_read : (∀ s, [0xd83d, 0xe000] ≠ Utf16.encode s) ∧
    ∃ p, tokenize (escapedLiteral '"'
      [.ofChars 'D' '8' '3' 'D' rfl, .ofChars 'E' '0' '0' '0' rfl]) =
      .ok [⟨.str (String.singleton (Char.ofNat 0x1f800)), .start, false⟩, ⟨.eof, p, true⟩] := by
  refine ⟨fun s hs => ?_, _, rfl⟩
  obtain ⟨_, _, -, ⟨h, -⟩ | ⟨-, _, _, h, -, hus, -⟩⟩ := Utf16.flatMap_units_eq_cons hs
  · exact h (by decide)
  · obtain ⟨rfl, -⟩ := cons.inj hus
    exact absurd h.2 (by decide)

end BarScript

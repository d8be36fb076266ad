import BarScript.Proofs.RoundTrip.Compiled

/-!
# Where compilation fails

The lexer moves its position along with the text, so a token stands at the position of an
offset. The parser takes the positions of its tokens over into the tree, and no pass makes
up a position of its own: where the compilation of a script fails, there is a place in the
script to point at.
-/

namespace BarScript

open List

/-- The position behind a text: one more than its line feeds, and one more than what
stands behind the last of them. -/
def Position.behind (before : List Char) : Position :=
  ⟨before.count '\n' + 1, (before.reverse.takeWhile (· != '\n')).length + 1⟩

theorem Position.past_start (before : List Char) : start.past before = behind before := by
  induction before using List.reverseRecOn with
  | nil => rfl
  | append_singleton before c ih =>
    have hpast : start.past (before ++ [c]) = (start.past before).next c := foldl_concat ..
    rw [hpast, ih]
    by_cases hc : c = '\n' <;> simp [next, behind, hc, count_append]

def Located (cs : List Char) (pos : Position) : Prop :=
  ∃ before, before <+: cs ∧ pos = Position.start.past before

/-! ## Tokens -/

/-- A reader that has come to an offset of a text. -/
def Reader.At (cs : List Char) (r : Reader) : Prop :=
  ∃ before, before ++ r.rest = cs ∧ r.pos = Position.start.past before

section Lexer

variable {cs : List Char} {r : Reader} {start : Position}

theorem Reader.At.located (h : r.At cs) : Located cs r.pos := by
  obtain ⟨before, hcs, hpos⟩ := h
  exact ⟨before, ⟨r.rest, hcs⟩, hpos⟩

theorem Reader.At.past (run : List Char) {rest : List Char} {pos : Position}
    (h : Reader.At cs ⟨run ++ rest, pos⟩) : Reader.At cs ⟨rest, pos.past run⟩ := by
  obtain ⟨before, hcs, hpos⟩ := h
  refine ⟨before ++ run, (append_assoc ..).trans hcs, ?_⟩
  dsimp only at hpos
  rw [hpos]
  exact foldl_append.symm

theorem Reader.At.drop (h : r.At cs) (n : Nat) : (r.drop n).At cs := by
  refine Reader.At.past (r.rest.take n) ?_
  rwa [take_append_drop]

theorem Reader.At.span (h : r.At cs) (p : Char → Bool) : (r.span p).2.At cs := by
  refine Reader.At.past (r.rest.takeWhile p) ?_
  rwa [takeWhile_append_dropWhile]

theorem Reader.At.cons {c : Char} {rest : List Char} {pos : Position}
    (h : Reader.At cs ⟨c :: rest, pos⟩) : Reader.At cs ⟨rest, pos.next c⟩ :=
  Reader.At.past [c] h

theorem Reader.At.next (h : r.At cs) : r.next.At cs := by
  obtain ⟨rest, pos⟩ := r
  cases rest with
  | nil => exact h
  | cons c rest => exact h.cons

/-- Reading leads to an offset of the text, or fails at one. -/
abbrev Scans {α : Type} (cs : List Char) (x : Scan (α × Reader)) : Prop :=
  Except.Ends (CompileError.ParseAt (Located cs)) (fun a => a.2.At cs) x

/-- A comment that is skipped began at an offset of the text. -/
def Skipping.Within (cs : List Char) : Skipping → Prop
  | .blockComment start => Located cs start
  | _ => True

theorem skipFrom_scans (mode : Skipping) (h : Reader.At cs ⟨rest, pos⟩) (hmode : mode.Within cs) :
    Scans cs (skipFrom newline mode pos rest) := by
  fun_induction skipFrom newline mode pos rest with
  | case1 | case6 | case7 => exact h
  | case2 _ _ _ ih => exact ih h.cons.cons trivial
  | case3 _ _ _ ih => exact ih h.cons.cons h.located
  | case10 => exact hmode
  | case11 _ _ _ _ ih => exact ih h.cons.cons trivial
  | case12 =>
    rename_i ih
    exact ih h.cons hmode
  | _ =>
    rename_i ih
    exact ih h.cons trivial

theorem scanFraction_at (h : r.At cs) : (scanFraction r).2.At cs := by
  unfold scanFraction
  split
  · split
    · exact h.next.span _
    · split
      · exact h
      · exact h.next
  · exact h

theorem scanExponent_at (h : r.At cs) : (scanExponent r).2.At cs := by
  unfold scanExponent
  split
  · split
    · exact (h.drop 2).span _
    · split
      · exact (h.drop 1).span _
      · exact h
  · exact h

theorem scanNumber_scans (h : r.At cs) : Scans cs (scanNumber r) := by
  unfold scanNumber
  split
  · unfold scanHex
    dsimp only
    split
    · exact h.located
    · exact (h.drop 2).span _
  · have hend := scanExponent_at (scanFraction_at (h.span Char.isDigit))
    dsimp only
    split
    · exact hend.located
    · exact hend

theorem scanUnit_scans (h : r.At cs) (hstart : Located cs start) : Scans cs (scanUnit start r) := by
  unfold scanUnit
  dsimp only
  split
  · exact h.drop 4
  · exact hstart

theorem charOf_ends (hstart : Located cs start) :
    Except.Ends (CompileError.ParseAt (Located cs)) (fun _ => True) (charOf start n) := by
  unfold charOf
  split
  · trivial
  · exact hstart

theorem scanEscape_scans (h : r.At cs) (hstart : Located cs start) :
    Scans cs (scanEscape start r) := by
  have hchar : ∀ {n : Nat} {r' : Reader}, r'.At cs →
      Scans cs (charOf start n >>= fun c => .ok (c, r')) :=
    fun h => (charOf_ends hstart).bind fun _ _ => h
  refine (scanUnit_scans h hstart).bind fun (high, r) h => ?_
  dsimp only
  split
  · refine Except.Ends.bind (scanUnit_scans (h.drop 2) hstart) ?_
    rintro ⟨low, r⟩ h
    -- the number of the character is left as it is
    generalize 0x10000 + (high - 0xd800) * 0x400 + low - 0xdc00 = n
    exact hchar h
  · exact hchar h

theorem scanStringFrom_scans (h : r.At cs)
    (hstart : Located cs start) : Scans cs (scanStringFrom quote start fuel acc r) := by
  induction fuel generalizing acc r with
  | zero => exact hstart
  | succ fuel ih =>
    unfold scanStringFrom
    split
    · exact hstart
    · split
      · exact h.next
      · split
        · exact hstart
        · split
          · split
            · exact hstart
            · have hescape := scanEscape_scans h.next.next h.next.located
              split
              · rename_i hend
                rw [hend] at hescape
                exact ih hescape
              · rename_i hend
                rw [hend] at hescape
                exact hescape
            · exact ih h.next.next
          · exact ih h.next

theorem scanToken_scans (h : r.At cs) : Scans cs (scanToken c r) := by
  unfold scanToken
  split
  · exact scanNumber_scans h
  · split
    · exact (scanStringFrom_scans h.next h.located).bind fun _ h => h
    · split
      · exact h.span _
      · unfold scanMark
        split
        · exact h.drop _
        · exact h.located

/-- Every token stands at the position of an offset. -/
theorem tokensFrom_located (fuel : Nat) (h : r.At cs) :
    Except.Ends (CompileError.ParseAt (Located cs)) (fun ts => ∀ t ∈ ts, Located cs t.pos)
      (tokensFrom fuel r) := by
  induction fuel generalizing r with
  | zero => exact h.located
  | succ fuel ih =>
    refine (skipFrom_scans .blanks h trivial).bind fun (newline, r) h => ?_
    dsimp only
    split
    · exact forall_mem_singleton.2 h.located
    · refine (scanToken_scans h).bind fun (kind, r') h' => ?_
      exact (ih h').bind fun rest hrest => forall_mem_cons.2 ⟨h.located, hrest⟩

end Lexer

/-! ## Trees -/

/-- **Parsing** gives a tree whose positions are those of offsets, or fails at one. -/
theorem parse_located (source : String) : Except.Ends (CompileError.ParseAt (Located source.toList))
      (fun p => p.root.Made (Located source.toList)) (parse source) := by
  have hstart : Located source.toList .start := ⟨[], nil_prefix, rfl⟩
  have hfirst : (Reader.ofString source).At source.toList := ⟨[], rfl, rfl⟩
  have htokens := tokensFrom_located (source.length + 1) hfirst
  have hworded : ∀ tokens, tokenize source = .ok tokens → ∀ t ∈ tokens, t.kind.Worded :=
    fun _ => tokensFrom_worded
  unfold parse
  change Except.Ends _ _ (tokenize source) at htokens
  cases h : tokenize source with
  | error e =>
    rw [h] at htokens
    exact htokens
  | ok tokens =>
    rw [h] at htokens
    refine (Parser.run_program_ends (fun t ht => ⟨hworded tokens h t ht, htokens t ht⟩)
      hstart).bind fun r hr => hr.1

/-- The shape of trees whose positions are known where the passes may have to name
them. -/
def located (P : Position → Prop) : Shape where
  expr
    | .ident id => P id.pos
    | .update _ _ target | .assign _ target _ => target.isTarget = true
    | _ => True
  name _ := True
  decls ds := ∀ d ∈ ds, (∀ id, d.target ≠ .ident id) →
    P d.pos ∧ ∀ id ∈ d.target.boundNames, P id.pos

section Passes

variable {P : Position → Prop} {root : String} {names : List String}

theorem grammatical_located : Shape.Entails (fun _ : Unit => grammatical P) (located P) where
  expr e h := by
    cases e with
    | ident id => exact (h ()).2
    | update | assign => exact h ()
    | _ => trivial
  name _ _ := trivial
  decls _ h d hd _ := ((h ()).2 d hd).2
  named _ _ := trivial

theorem located_normal : NormalForm.Keeps root names (located P) where
  expr {e} p he := by
    cases e with
    | ident id => exact he
    | update op first t => exact (t.isTarget_normal root p).trans he
    | assign op t v => exact (t.isTarget_normal root p).trans he
    | _ => trivial
  decls ds l h _ hlike d hd hplain := by
    obtain ⟨d', hd', htarget, -, hpos⟩ := hlike d hd
    rw [htarget] at hplain ⊢
    rw [hpos]
    exact h d' hd' hplain
  single id init pos d hd hplain := by
    cases mem_singleton.1 hd
    exact absurd rfl (hplain id)
  tuple h d hd items hitems id hid _ _ :=
    (h d hd (hitems ▸ nofun)).2 id (hitems ▸ mem_filterMap.2 ⟨_, hid, rfl⟩)

theorem located_refuses (c : Slotted.Setting) :
    Naming.Refuses c (fun e => P e.pos) (located P) where
  unresolved h := h
  name _ h := h
  target _ ht h := by
    rcases h with ⟨op, v, h⟩ | ⟨op, first, h⟩
    · exact absurd (ht.symm.trans h) Bool.false_ne_true
    · exact absurd (ht.symm.trans h) Bool.false_ne_true
  pattern _ h hd ht _ := (h _ hd ht).1

end Passes

/-- **Compiling** fails at the position of an offset, if it does. -/
theorem compile_located (options : Options) (source : String) :
    Except.Ends (fun e => Located source.toList e.pos) (fun _ => True)
      (compile options source) := by
  have hparse : Except.Ends (fun e => Located source.toList e.pos)
      (fun p => p.root.Made (Located source.toList)) (parse source) :=
    (parse_located source).imp_error fun e he => by
      cases e with
      | parse => exact he
      | _ => cases he
  refine hparse.bind fun p hp => ?_
  have hbody : p.root.body.All (located (Located source.toList)) :=
    (Func.all_of grammatical_located fun _ => hp.all).body
  have hnormal : (p.stages options).normal.root.body.All (located (Located source.toList)) :=
    (Program.normal_all located_normal hbody).1
  have hcompiled := Naming.compiled_beside (located_refuses ⟨options, p.rootParam⟩) hnormal
  refine Except.Ends.bind (Q := fun _ => True) ?_ fun _ _ => trivial
  cases hc : p.compiled options with
  | ok r => trivial
  | error e => exact (hcompiled.of_eq_error hc).1

theorem Located.behind {source : String} (h : Located source.toList pos) :
    ∃ n ≤ source.length, pos = .behind (source.toList.take n) := by
  obtain ⟨before, hprefix, rfl⟩ := h
  refine ⟨before.length, ?_, ?_⟩
  · rw [← String.length_toList]
    exact hprefix.length_le
  · rw [← prefix_iff_eq_take.1 hprefix, Position.past_start]

/-- Whether a computation fails for a reason that passes a test. -/
def Except.fails {ε α : Type} (test : ε → Bool) : Except ε α → Bool
  | .ok _ => false
  | .error e => test e

theorem Except.exists_of_fails {ε α : Type} {x : Except ε α} {test : ε → Bool}
    (h : Except.fails test x = true) : ∃ e, x = .error e ∧ test e = true := by
  cases x with
  | error e => exact ⟨e, rfl, h⟩
  | ok a => cases h

/-- **Compile errors are located in the source.** If a script does not compile, the error
has the position of an offset in the text: a line that counts the line feeds in front of the
offset, and a column that counts the characters in front of it on its line, both from one.
So it never has the position that stands for no place. -/
theorem compile_errors_are_located {options : Options} {source : String} {e : CompileError}
    (h : compile options source = .error e) :
    (∃ n ≤ source.length, e.pos = .behind (source.toList.take n)) ∧ e.pos ≠ ⟨0, 0⟩ := by
  have hends := compile_located options source
  rw [h] at hends
  obtain ⟨n, hn, hpos⟩ := Located.behind hends
  refine ⟨⟨n, hn, hpos⟩, ?_⟩
  rw [hpos]
  exact fun h => nomatch congrArg Position.line h

/-- A name that nothing declares, on the second line of a text. -/
def misspeltText : String :=
  "c => \x7b\n  return x\n\x7d"

theorem compile_errors_are_located_misspelt :
    ∃ e, compile {} misspeltText = .error e ∧ e.pos = ⟨2, 10⟩ ∧
      (∃ n ≤ misspeltText.length, e.pos = .behind (misspeltText.toList.take n)) ∧
        e.pos ≠ ⟨0, 0⟩ := by
  have h : Except.gives (fun p => Except.fails (fun e => decide (e.pos = ⟨2, 10⟩))
      (p.compiled {})) (parse misspeltText) = true := by
    refine gives_parse String.toList_ofList ?_
    decide +kernel
  obtain ⟨p, hp, h⟩ := Except.exists_of_gives h
  obtain ⟨e, he, hpos⟩ := Except.exists_of_fails h
  have hcompile : compile {} misspeltText = .error e := by
    unfold compile
    rw [hp]
    show (p.compiled {} >>= _) = _
    rw [he]
    rfl
  exact ⟨e, hcompile, of_decide_eq_true hpos, compile_errors_are_located hcompile⟩

end BarScript

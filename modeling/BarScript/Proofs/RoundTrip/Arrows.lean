import BarScript.Proofs.RoundTrip.Compiled

/-!
# Arrow functions with a value

Behind an arrow, the parser takes a brace for the beginning of a block. The printer puts an
object literal in parentheses there, but not an expression that only begins with one, such as
the sum of an object literal and a number. So the text of an arrow function is read as the
function if its value is an object literal or begins with another token, and never otherwise.
-/

namespace BarScript

open Printer Cursor Lexeme

namespace Parser

theorem block_of_arrow_brace {v w : Token} (h : Params ps ids) (hv : v.kind = .mark "=>")
    (hline : v.newlineBefore = false) (hw : w.kind = .mark "\x7b") (hsize : ps.length ≤ size)
    (hread : (level size depth).assignmentRule (before (ps ++ v :: w :: us) c) = .ok (e, c')) :
    ∃ stmts pos, e = .func ⟨none, ids, .block stmts, .arrow, pos⟩ := by
  obtain ⟨t, ps, rfl, ht⟩ := h.starts
  have harrow : arrowAhead (before (t :: (ps ++ v :: w :: us)) c) = .ok (true, _) :=
    h.arrowAhead hv hline
  have hids : params (level size depth).size (before (t :: (ps ++ v :: w :: us)) c) =
      .ok (ids, before (v :: w :: us) c) := h.reads hsize
  rw [List.cons_append] at hread
  simp only [Grammar.assignmentRule] at hread
  simp [harrow, Grammar.arrowFunction, ht, hids, hv, hw] at hread
  obtain ⟨r, -, hr⟩ := Except.of_bind_eq_ok hread
  cases hr
  exact ⟨r.1, _, rfl⟩

end Parser

open BarScript.Parser

/-- The text of an arrow function is read as the function exactly if its value is an object
literal or does not begin with a brace. -/
theorem Func.arrow_text_reads {params : List Ident} {b : Expr}
    (hparams : ∀ id ∈ params, IsName id.name)
    (hb : b.All written) (depth : Nat) (pos : Position) :
    ∃ tokens, tokenize ((Expr.func ⟨none, params, .expr b, .arrow, pos⟩).text depth) = .ok tokens ∧
      ((∃ f last, run (grammar (tokens.length + 1)).assignment tokens = .ok (.func f, ⟨last, []⟩) ∧
          f.bare = Func.bare ⟨none, params, .expr b, .arrow, pos⟩) ↔
        Func.Braceless ⟨none, params, .expr b, .arrow, pos⟩) := by
  obtain ⟨tokens, last, htokens, hlast, hspelled⟩ :=
    ((Expr.func ⟨none, params, .expr b, .arrow, pos⟩).make_lexemes depth).tokenize
      (s := (Expr.func ⟨none, params, .expr b, .arrow, pos⟩).text depth)
      (List.append_nil _).symm isBlank_nil
      (Func.legible_arrow hparams (b.legible depth hb) isBlank_nil fun _ h => by cases h)
  refine ⟨tokens ++ [last], htokens, ?_, fun hbraceless => ?_⟩
  · rintro ⟨f, _, hrun, hbare⟩
    by_contra hbrace
    obtain ⟨hobject, hleading⟩ := not_or.1 hbrace
    obtain ⟨us, vs, rfl, hus, hvs⟩ := Spelled.of_append hspelled
    obtain ⟨ps, v, ids, rfl, hps, hv, hline, -⟩ := hus.arrowHead hparams
    obtain ⟨tail, hhead⟩ := head_parensIf (b := b.isObject) (b.head_lexemes depth) [' ']
    rw [hhead, TokenKind.opened, if_neg hobject] at hvs
    obtain ⟨w, ws, rfl, hw, -⟩ := hvs.of_cons
    have hbegins : b.leading = .mark "\x7b" := by
      generalize b.leading = k at hleading
      cases k with
      | mark m => simpa using hleading
      | _ => exact absurd rfl hleading
    rw [run_append] at hrun
    simp only [List.append_assoc, List.cons_append, List.nil_append] at hrun
    obtain ⟨stmts, _, hf⟩ := block_of_arrow_brace hps hv hline (hw.trans hbegins)
      (by simp; omega) hrun
    cases hf
    simp [Func.bare, FuncBody.bare] at hbare
  · obtain ⟨f, hbare, hread⟩ := Func.read depth ⟨none, params, .expr b, .arrow, pos⟩
      ⟨rfl, hbraceless⟩ ⟨hparams, hb⟩ hspelled
    refine ⟨f, last, ?_, hbare⟩
    rw [run_append]
    exact @Phrase.reads _ _ _ _ _ hread.graded.assignment _ (2 * ((tokens ++ [last]).length + 1)) _
      (by simp; omega) (by simp; omega) (by rw [hlast]; rfl)

/-- **Arrow functions with a value survive printing unless the value begins with a brace.** For
every value that has the form the grammar gives, with words for names and nothing else that its
text would lose, the lexer accepts the text of the arrow function. The rule for assignments reads
it as the function, up to positions, exactly if the value is an object literal or its first token
is no brace. A script that is read from a text, with no such value in it, is read from its own
text as itself, wherever the arrow functions in it stand. -/
theorem arrow_values_read_back (params : List Ident) (b : Expr) (depth : Nat) (pos : Position)
    (hparams : ∀ id ∈ params, IsName id.name) (hb : b.All regular) (hintact : b.All intact) :
    (∃ tokens, tokenize ((Expr.func ⟨none, params, .expr b, .arrow, pos⟩).text depth) = .ok tokens ∧
      ((∃ f last, run (grammar (tokens.length + 1)).assignment tokens = .ok (.func f, ⟨last, []⟩) ∧
          f.bare = Func.bare ⟨none, params, .expr b, .arrow, pos⟩) ↔
        (b.isObject = true ∨ b.leading.isMark "\x7b" = false))) ∧
    ∀ {source : String} {p : Program}, parse source = .ok p → p.root.All worded → p.Intact →
      ∃ q, parse p.text = .ok q ∧ q.bare = p.bare := by
  refine ⟨?_, fun {source p} hparse hworded hintact => ?_⟩
  · exact Func.arrow_text_reads hparams (hb.meet regular_meet hintact) depth pos
  · obtain ⟨⟨hstyled, hall, -, -⟩, hone⟩ := parse_grammatical hparse
    exact Program.text_reads p (hstyled.written hintact.1)
      ((hall.meet grammatical_meet hworded).meet regular_meet hintact.2) hone

/-- An object literal is the value of an argument, and a sum that of an operand. -/
def arrowsText : String :=
  "c => c.map((x) => (\x7b a: x \x7d)) + ((y) => y + \x7b\x7d)(1)"

theorem arrow_values_read_back_nested :
    (∃ tokens f last, tokenize ((Expr.func ⟨none, [⟨"x", .start⟩],
        .expr (.object [("a", .named "x")]), .arrow, .start⟩).text 0) = .ok tokens ∧
      run (grammar (tokens.length + 1)).assignment tokens = .ok (.func f, ⟨last, []⟩) ∧
      f.bare =
        Func.bare ⟨none, [⟨"x", .start⟩], .expr (.object [("a", .named "x")]), .arrow, .start⟩) ∧
    ∃ p q, parse arrowsText = .ok p ∧ p.root.All worded ∧ p.Intact ∧ parse p.text = .ok q ∧
      q.bare = p.bare := by
  obtain ⟨⟨tokens, htokens, hiff⟩, hscripts⟩ := arrow_values_read_back [⟨"x", .start⟩]
    (.object [("a", .named "x")]) 0 .start (by decide)
    ⟨trivial, (by decide : IsName "x"), trivial⟩ (by decide)
  refine ⟨?_, ?_⟩
  · obtain ⟨f, last, hrun, hbare⟩ := hiff.2 (.inl rfl)
    exact ⟨tokens, f, last, htokens, hrun, hbare⟩
  · have h : Except.gives (fun p => decide (p.root.All worded) && decide p.Intact)
        (parse arrowsText) = true := by
      refine gives_parse String.toList_ofList ?_
      decide +kernel
    obtain ⟨p, hparse, h⟩ := Except.exists_of_gives h
    obtain ⟨hworded, hintact⟩ := Bool.and_eq_true_iff.1 h
    obtain ⟨q, hq, hbare⟩ := hscripts hparse (of_decide_eq_true hworded)
      (of_decide_eq_true hintact)
    exact ⟨p, q, hparse, of_decide_eq_true hworded, of_decide_eq_true hintact, hq, hbare⟩

/-- The value of this script begins with an object literal. -/
def objectSumText : String :=
  "(c) => (\x7b a: 1 \x7d) + 1"

/-- The text of that script is not read as the script. -/
def Func.isBracedValue : Func → Bool
  | ⟨none, ids, .expr b, .arrow, _⟩ => decide (∀ id ∈ ids, IsName id.name) &&
    decide (b.All worded) && decide (b.All intact) && !b.isObject && b.leading.isMark "\x7b"
  | _ => false

theorem object_sum_not_read_back :
    ∃ p tokens, parse objectSumText = .ok p ∧ tokenize ((Expr.func p.root).text 0) = .ok tokens ∧
      ¬∃ f last, run (grammar (tokens.length + 1)).assignment tokens = .ok (.func f, ⟨last, []⟩) ∧
        f.bare = p.root.bare := by
  have h : Except.gives (fun p => p.root.isBracedValue) (parse objectSumText) = true := by
    refine gives_parse String.toList_ofList ?_
    decide +kernel
  obtain ⟨p, hparse, h⟩ := Except.exists_of_gives h
  obtain ⟨⟨-, hall, -, -⟩, -⟩ := parse_grammatical hparse
  obtain ⟨⟨name, params, body, style, pos⟩⟩ := p
  cases name with
  | some id => cases h
  | none =>
    cases body with
    | block stmts => cases h
    | expr b =>
      cases style with
      | classic => cases h
      | arrow =>
        simp only [Func.isBracedValue, Bool.and_eq_true, decide_eq_true_eq, Bool.not_eq_true'] at h
        obtain ⟨⟨⟨⟨hparams, hworded⟩, hintact⟩, hobject⟩, hbrace⟩ := h
        obtain ⟨tokens, htokens, hiff⟩ := Func.arrow_text_reads hparams
          ((hall.2.meet grammatical_meet hworded).meet regular_meet hintact) 0 pos
        refine ⟨_, tokens, hparse, htokens, fun hread => ?_⟩
        have hbraceless := hiff.1 hread
        simp [Func.Braceless, hobject, hbrace] at hbraceless

end BarScript

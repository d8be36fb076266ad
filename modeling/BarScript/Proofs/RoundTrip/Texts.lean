import BarScript.Proofs.RoundTrip.Printed

/-!
# Texts that are read back

The tokens of a printed tree are what the lexer finds in its text, and the parser
reads the tree from them. So the text of an expression, and the text of a script,
is read as the tree it was printed from, up to positions and to braces around
single statements.

What the digits of a number name is not settled here: that the shortest digits of
a number are read as the number is asked of the numbers of the tree.
-/

namespace BarScript

open BarScript.Parser Printer Lexeme

/-! ## From a text to its tokens -/

theorem Parser.run_append {α : Type} (p : Parser α) (ts : List Token) (last : Token) :
    run p (ts ++ [last]) = p (Cursor.before ts ⟨last, []⟩) := by
  cases ts <;> rfl

/-- The lexer gives the tokens that a text is made of. -/
theorem Lexeme.Make.tokenize {ls : List Char → List Lexeme} {s : String} (h : Make ls text)
    (hs : s.toList = text.toList ++ rest) (hrest : IsBlank rest) (hlegible : Legible (ls []) rest) :
    ∃ ts last, BarScript.tokenize s = .ok (ts ++ [last]) ∧ last.kind = .eof ∧
      Spelled (ls []) ts := by
  have hspell : s.toList = spell (ls []) ++ rest := by rw [h [], hs]; rfl
  obtain ⟨ts, pos, htokens, hspelled⟩ := tokenize_spell hlegible hrest hspell
  exact ⟨ts, _, htokens, rfl, hspelled⟩

/-! ## Expressions -/

/-- **The text of an expression is read as the expression.** -/
theorem Expr.text_reads (depth : Nat) (e : Expr) (he : e.All written) :
    ∃ ts last e', tokenize (e.text depth) = .ok (ts ++ [last]) ∧ last.kind = .eof ∧
      Assignment ts e' ∧ e'.bare = e.bare := by
  obtain ⟨ts, last, htokens, hlast, hspelled⟩ := (e.make_lexemes depth).tokenize (s := e.text depth)
    (List.append_nil _).symm isBlank_nil
    (e.legible depth he [] [] isBlank_nil fun _ h => nomatch h)
  obtain ⟨e', hbare, hread⟩ := e.read depth he hspelled
  exact ⟨ts, last, e', htokens, hlast, hread.assignment, hbare⟩

/-- Expressions without functions. Names are words that are not reserved, fields are
words, numbers are finite and have no sign, and what is assigned to is a name, a
field or an element. -/
def formulas : Shape where
  expr
    | .number x => x.isFinite = true ∧ Number.isNegative x = false
    | .ident id => IsName id.name
    | .member _ property => isWordText property = true
    | .update _ _ target => target.isTarget = true
    | .assign _ target _ => target.isTarget = true
    | .func _ => False
    | _ => True
  name _ := False
  decls _ := False
  named _ := False

instance : DecidablePred formulas.expr := fun e => by
  cases e <;> unfold formulas <;> infer_instance

instance : DecidablePred formulas.name := fun _ => .isFalse id

instance : DecidablePred formulas.decls := fun _ => .isFalse id

instance : DecidablePred formulas.named := fun _ => .isFalse id

/-- The numbers of a tree that are finite and have no sign are read from the digits
they are printed with. -/
def digitsRead : Shape where
  expr
    | .number x => x.isFinite = true → Number.isNegative x = false → Number.ReadsBack x
    | _ => True
  name _ := True

instance : DecidablePred digitsRead.expr := fun e => by
  cases e <;> unfold digitsRead <;> infer_instance

instance : DecidablePred digitsRead.name := fun _ => .isTrue trivial

instance : DecidablePred digitsRead.decls := fun _ => .isTrue trivial

instance : DecidablePred digitsRead.named := fun _ => .isTrue trivial

theorem formulas_meet : formulas.Meet digitsRead written where
  expr e h h' := by
    cases e with
    | number x => exact h' h.1 h.2
    | func f => exact h.elim
    | _ => exact h
  name _ h _ := h.elim
  decls _ h _ := h.elim
  named _ h _ := h.elim

/-- **Printing an expression and reading it gives the expression back.** The lexer
accepts the text, and the rule for assignments reads all of its tokens up to the
one that ends them. -/
theorem printed_expression_reads_back {e : Expr} (he : e.All formulas)
    (hdigits : e.All digitsRead) :
    ∃ tokens e' last, tokenize (e.text 0) = .ok tokens ∧
      run (grammar (tokens.length + 1)).assignment tokens = .ok (e', ⟨last, []⟩) ∧
      last.kind = .eof ∧ e'.bare = e.bare := by
  obtain ⟨ts, last, e', htokens, hlast, hread, hbare⟩ :=
    e.text_reads 0 (he.meet formulas_meet hdigits)
  refine ⟨ts ++ [last], e', last, htokens, ?_, hlast, hbare⟩
  rw [run_append]
  exact @Phrase.reads _ _ _ _ _ hread _ (2 * ((ts ++ [last]).length + 1)) _ (by simp; omega)
    (by simp; omega)
    (by rw [hlast]; rfl)

theorem Number.text_below_one {x : Float} (hnumber : x.isNaN = false)
    (hfinite : x.isInf = false) (hsign : isNegative x = false) (hne : (x.abs == 0.0) = false)
    (hd : shortest x.abs = d) (hpoint : d.point ≤ 0) : (Layout.script.text x).toList =
      '0' :: '.' :: (List.replicate (-d.point).toNat '0' ++ Nat.toDigits 10 d.digits) := by
  have htext : Layout.script.text x = inPlaceText (Nat.toDigits 10 d.digits) d.point "" := by
    simp only [Layout.text, Layout.magnitudeText, Layout.script, hnumber, hfinite, hsign, hne, hd,
      Bool.false_eq_true, if_false, if_true]
  rw [htext, inPlaceText, if_pos hpoint]
  simp [zeros]

/-- The least positive number, with its three hundred zeros. -/
theorem Number.readsBack_least : ReadsBack 5e-324 := by
  have htext := text_below_one (x := 5e-324) (d := ⟨5, -323⟩) (by decide +kernel)
    (by decide +kernel) (by decide +kernel) (by decide +kernel) (by decide +kernel) (by decide)
  unfold ReadsBack
  rw [htext]
  decide +kernel

/-- An expression that needs most of what the printer knows about parentheses: signs
that would fuse, a power whose base has a sign, a choice in front of a choice, a
field of a number, a key that is no word, a field that is a reserved word, and an
assignment below an operator. -/
def knottyExpr : Expr :=
  .conditional (.conditional (.binary .pow (.unary .neg (.unary .neg (.number 0.1)))
        (.binary .pow (.member (.number 12.0) "abs") (.number 5e-324)))
      (.unary .neg (.update .decrement true (.index (.named "d") (.str "line\n\"quoted\"")))) .this)
    (.binary .sub (.named "x")
      (.binary .sub (.assign .add (.member (.named "y") "if") .null) (.unary .not (.bool true))))
    (.call (.logical .or (.object [("odd key", .array [.number 1e21, .undefined]),
      ("v", .named "v")])
      (.named "w")) [])

theorem printed_expression_reads_back_knotty :
    knottyExpr.All formulas ∧ knottyExpr.All digitsRead ∧
    ∃ tokens e' last, tokenize (knottyExpr.text 0) = .ok tokens ∧
      run (grammar (tokens.length + 1)).assignment tokens = .ok (e', ⟨last, []⟩) ∧
      last.kind = .eof ∧ e'.bare = knottyExpr.bare := by
  have hformula : knottyExpr.All formulas := by decide +kernel
  have hdigits : knottyExpr.All digitsRead := by
    simp only [knottyExpr, Expr.All, Expr.ListAll, Expr.PropAll, digitsRead, Expr.named, and_true,
      true_and]
    refine ⟨⟨?_, ?_, fun _ _ => Number.readsBack_least⟩, ?_⟩
    all_goals decide +kernel
  exact ⟨hformula, hdigits, printed_expression_reads_back hformula hdigits⟩

/-! ## Scripts -/

/-- **The text of a script is read as the script.** -/
theorem Program.text_reads (p : Program) (hwritten : p.root.Written) (hall : p.root.All written)
    (hparams : p.root.params.length = 1) : ∃ q, parse p.text = .ok q ∧ q.bare = p.bare := by
  have hnewline : IsBlank ['\n'] := isBlank_newline 0
  obtain ⟨ts, last, htokens, hlast, hspelled⟩ := (p.root.make_lexemes 0).tokenize (s := p.text)
    (String.toList_append ..) hnewline
    (p.root.legible 0 hwritten hall [] ['\n'] isBlank_nil (next_cons (by decide)))
  obtain ⟨f, hbare, hread⟩ := p.root.read 0 hwritten hall hspelled
  have hone : f.params.length = 1 := by
    have hlength : f.bare.params.length = p.root.bare.params.length := by rw [hbare]
    obtain ⟨⟨name, params, body, style, pos⟩⟩ := p
    obtain ⟨name', params', body', style', pos'⟩ := f
    simpa [Func.bare, show params.length = 1 from hparams] using hlength
  have hprogram : run (grammar ((ts ++ [last]).length + 1)).program (ts ++ [last]) =
      .ok (⟨f⟩, ⟨last, []⟩) := by
    rw [run_append]
    generalize p.root.style = style at hread
    cases hread with
    | arrow ht harrow h => exact program_arrow ht h hlast (harrow _) (by simp) hone
    | classic ht _ h => exact program_classic ht h hlast (by simp) hone
  refine ⟨⟨f⟩, ?_, congrArg Program.mk hbare⟩
  unfold parse
  rw [htokens]
  show (run _ _ >>= _) = _
  rw [hprogram]
  rfl

end BarScript

import BarScript.Proofs.Bare
import BarScript.Proofs.RoundTrip.Bodies
import BarScript.Proofs.RoundTrip.Written

/-!
# The parser reads what is printed

The tokens of a printed tree are read as the same tree, up to positions. The
printer decides by strength where parentheses go, the parser by the precedence of
the operator it has just read; that the two agree is one inequality for each
operand, and everything else follows the recursion of the printer.
-/

namespace BarScript

open BarScript.Parser Printer Lexeme List Declarator

variable {s : Stmt} {e : Expr} {k depth : Nat} {y x : Token} {us ts : List Token} {ls : List Lexeme}
  {lead : List Char} {ids : List Ident}

/-! ## Tokens of lexemes -/

/-- Tokens that are spelled in a given way. -/
def Spelled (ls : List Lexeme) (ts : List Token) : Prop :=
  ts.map Token.sign = ls.map Lexeme.sign

theorem spelled_nil : Spelled [] ts ↔ ts = [] := map_eq_nil_iff

theorem Spelled.of_append (h : Spelled (ls ++ ls') ts) :
    ∃ us vs, ts = us ++ vs ∧ Spelled ls us ∧ Spelled ls' vs := by
  unfold Spelled at h
  rw [map_append] at h
  obtain ⟨us, vs, rfl, hus, hvs⟩ := map_eq_append_iff.1 h
  exact ⟨us, vs, rfl, hus, hvs⟩

theorem Spelled.of_cons {k : TokenKind} (h : Spelled (⟨lead, k⟩ :: ls) ts) :
    ∃ t us, ts = t :: us ∧ t.kind = k ∧ t.newlineBefore = lead.contains '\n' ∧ Spelled ls us := by
  obtain ⟨t, us, rfl, ht, hus⟩ := map_eq_cons_iff.1 h
  exact ⟨t, us, rfl, congrArg Prod.fst ht, congrArg Prod.snd ht, hus⟩

theorem Spelled.of_singleton {k : TokenKind} (h : Spelled [⟨lead, k⟩] ts) :
    ∃ t, ts = [t] ∧ t.kind = k ∧ t.newlineBefore = lead.contains '\n' := by
  obtain ⟨t, us, rfl, ht, hline, hus⟩ := h.of_cons
  exact ⟨t, by rw [spelled_nil.1 hus], ht, hline⟩

/-- A lexeme between two sequences. -/
theorem Spelled.of_middle {k : TokenKind} (h : Spelled (ls ++ ⟨lead, k⟩ :: ls') ts) :
    ∃ us t vs, ts = us ++ t :: vs ∧ Spelled ls us ∧ t.kind = k ∧ Spelled ls' vs := by
  obtain ⟨us, _, rfl, hus, hvs⟩ := h.of_append
  obtain ⟨t, vs, rfl, ht, -, hvs⟩ := hvs.of_cons
  exact ⟨us, t, vs, rfl, hus, ht, hvs⟩

/-- A sequence between two lexemes. -/
theorem Spelled.of_around {lead' : List Char} {k k' : TokenKind}
    (h : Spelled (⟨lead, k⟩ :: (ls ++ [⟨lead', k'⟩])) ts) :
    ∃ t us u, ts = t :: (us ++ [u]) ∧ t.kind = k ∧ Spelled ls us ∧ u.kind = k' := by
  obtain ⟨t, _, rfl, ht, -, hrest⟩ := h.of_cons
  obtain ⟨us, _, rfl, hus, hlast⟩ := hrest.of_append
  obtain ⟨u, rfl, hu, -⟩ := hlast.of_singleton
  exact ⟨t, us, u, rfl, ht, hus, hu⟩

theorem Spelled.starts {k : TokenKind} {p : TokenKind → Bool} (h : Spelled ls ts)
    (hls : ∃ tail, ls = ⟨lead, k⟩ :: tail) (hk : p k = true) : Starts p ts := by
  obtain ⟨tail, rfl⟩ := hls
  obtain ⟨t, us, rfl, ht, -⟩ := h.of_cons
  exact starts_cons ht hk

/-! ## Operands -/

/-- An expression is read, up to positions, from whatever tokens spell it. -/
def Lexeme.Read (ls : List Char → List Lexeme) (k : Nat) (e : Expr) : Prop :=
  ∀ {lead : List Char} {ts : List Token}, Spelled (ls lead) ts →
    ∃ e', e'.bare = e.bare ∧ Graded k ts e'

theorem Lexeme.Read.parensIf {ls : List Char → List Lexeme} (h : Read ls k e) (b : Bool) :
    Read (Lexeme.parensIf b ls) (if b then primaryStrength else k) e := by
  intro lead ts hts
  cases b with
  | false => exact h hts
  | true =>
    obtain ⟨t, vs, u, rfl, ht, hvs, hu⟩ := hts.of_around
    obtain ⟨e', hbare, he'⟩ := h hvs
    exact ⟨e', hbare, .of_chain (.parens he'.assignment ht hu)
      (show 14 ≤ primaryStrength by decide)⟩

/-- What is spelled by one token. -/
theorem Lexeme.Read.literal {k : TokenKind} (hts : Spelled [⟨lead, k⟩] ts)
    (h : ∀ {t : Token}, t.kind = k → Chain [t] e) :
    ∃ e', e'.bare = e.bare ∧ Graded primaryStrength ts e' := by
  obtain ⟨t, rfl, ht, -⟩ := hts.of_singleton
  exact ⟨e, rfl, .of_chain (h ht) (show 14 ≤ primaryStrength by decide)⟩

/-- What needs no parentheses in front of a field is read together with it. -/
theorem Lexeme.Read.operand {ls : List Char → List Lexeme} (h : Read ls (strength e) e)
    (hts : Spelled (Lexeme.parensIf (needsParens e) ls lead) ts) :
    ∃ e', e'.bare = e.bare ∧ Chain ts e' := by
  obtain ⟨e', hbare, he'⟩ := h.parensIf _ hts
  refine ⟨e', hbare, he'.chain ?_⟩
  split
  · decide
  · rename_i hparens
    simp only [needsParens, Bool.or_eq_true, not_or, decide_eq_true_eq] at hparens
    exact Nat.not_lt.1 hparens.1

theorem Expr.isTarget_bare (e : Expr) : e.bare.isTarget = e.isTarget := by
  cases e <;> rfl

theorem Expr.isTarget_of_bare {e' : Expr} (h : e'.bare = e.bare) : e'.isTarget = e.isTarget := by
  rw [← e'.isTarget_bare, h, e.isTarget_bare]

/-! ## Operators

Of an operand that is printed without parentheses, `l` or `r` is its strength; of
one in parentheses, the strength of a literal. -/

theorem Printer.le_primary : 14 ≤ primaryStrength := by decide

theorem Printer.le_access : 14 ≤ accessStrength := by decide

theorem Printer.unary_range : 14 ≤ unaryStrength ∧ unaryStrength < 17 := by decide

theorem Printer.post_range : 14 ≤ postStrength ∧ postStrength < 17 := by decide

theorem BinaryOp.precedence_range (op : BinaryOp) : 0 < op.precedence ∧ op.precedence < 14 := by
  cases op <;> decide

theorem LogicalOp.precedence_range (op : LogicalOp) : 0 < op.precedence ∧ op.precedence < 14 := by
  cases op <;> decide

section Strength

open Grammar

variable {t : Token} {l r : Nat}

theorem BinaryOp.stops_left {op : BinaryOp} (ht : t.kind = .mark op.symbol)
    (hk : k = if l < op.precedence || (op == .pow && (l == op.precedence || l == unaryStrength))
      then primaryStrength else l) : 2 < k ∧ Stops (min k 14) t := by
  have hpull : t.pull = op.precedence := by
    rw [Token.pull, ht]
    exact Joint.pull_symbol (.binary op) t.newlineBefore
  rw [Stops, hpull]
  split at hk <;> rename_i h <;> simp only [Bool.or_eq_true, Bool.and_eq_true, decide_eq_true_eq,
    beq_iff_eq] at h <;> cases op <;>
    simp [precedence, unaryStrength, primaryStrength] at h hk ⊢ <;> omega

theorem BinaryOp.rightPrecedence_le {op : BinaryOp}
    (hk : k = if r < op.precedence || (!(op == .pow) && r == op.precedence)
      then primaryStrength else r) : 2 < k ∧ (Joint.binary op).rightPrecedence ≤ min k 14 := by
  split at hk <;> rename_i h <;> simp only [Bool.or_eq_true, Bool.and_eq_true, decide_eq_true_eq,
    beq_iff_eq, Bool.not_eq_true'] at h <;> cases op <;>
    simp [precedence, primaryStrength, Joint.rightPrecedence, Joint.precedence] at h hk ⊢ <;> omega

theorem LogicalOp.stops_left {op : LogicalOp} (ht : t.kind = .mark op.symbol)
    (hk : k = if decide (l < op.precedence) = true then primaryStrength else l) :
    2 < k ∧ Stops (min k 14) t := by
  have hpull : t.pull = op.precedence := by
    rw [Token.pull, ht]
    exact Joint.pull_symbol (.logical op) t.newlineBefore
  rw [Stops, hpull]
  split at hk <;> rename_i h <;> simp only [decide_eq_true_eq] at h <;> cases op <;>
    simp [precedence, BinaryOp.precedence, primaryStrength] at h hk ⊢ <;> omega

theorem LogicalOp.rightPrecedence_le {op : LogicalOp}
    (hk : k = if decide (r ≤ op.precedence) = true then primaryStrength else r) :
    2 < k ∧ (Joint.logical op).rightPrecedence ≤ min k 14 := by
  split at hk <;> rename_i h <;> simp only [decide_eq_true_eq] at h <;> cases op <;>
    simp [precedence, primaryStrength, Joint.rightPrecedence, Joint.precedence] at h hk ⊢ <;> omega

end Strength

variable {f : Func} {items : List (Option Ident)} {name : Option Ident} {stmts stmts' : List Stmt}

/-! ## Lists and patterns -/

/-- If every item is read as what it stands for, so is the list. `g` and `r` say what is
compared of an item and of what is read. -/
theorem Spelled.separated {α β γ : Type} {after : TokenKind → Bool} {p : Grammar → Parser β}
    {f : α → List Char → List Lexeme} {g : α → γ} {r : β → γ} {as : List α}
    (h : ∀ a ∈ as, ∀ {lead : List Char} {ts : List Token}, Spelled (f a lead) ts →
      ∃ b, r b = g a ∧ Phrase after p ts b) (hts : Spelled (Lexeme.separated (as.map f) lead) ts) :
    ∃ bs, bs.map r = as.map g ∧ Separated after p ts bs := by
  induction as generalizing lead ts with
  | nil =>
    obtain rfl := spelled_nil.1 hts
    exact ⟨[], rfl, .nil⟩
  | cons a as ih =>
    obtain ⟨ha, has⟩ := forall_mem_cons.1 h
    cases as with
    | nil =>
      obtain ⟨b, hb, hphrase⟩ := ha hts
      exact ⟨[b], by simp [hb], .one hphrase⟩
    | cons a' as =>
      obtain ⟨us, t, ws, rfl, hus, ht, hws⟩ := hts.of_middle
      obtain ⟨b, hb, hphrase⟩ := ha hus
      obtain ⟨bs, hbs, hrest⟩ := ih has hws
      cases bs with
      | nil => cases hbs
      | cons b' bs => exact ⟨b :: b' :: bs, by rw [map_cons, hb, hbs]; rfl, .cons hphrase ht hrest⟩

theorem Spelled.params (hids : ∀ id ∈ ids, IsName id.name)
    (h : Spelled (⟨lead, .mark "("⟩ :: Lexeme.params ids) ts) :
    ∃ ids', ids'.map Ident.bare = ids.map Ident.bare ∧ Params ts ids' := by
  obtain ⟨t, us, u, rfl, ht, hus, hu⟩ := h.of_around
  obtain ⟨ids', hbare, hread⟩ := hus.separated (g := Ident.bare) (r := Ident.bare)
    fun id hid {lead ts} hts => by
      obtain ⟨t, rfl, ht, -⟩ := hts.of_singleton
      exact ⟨⟨id.name, t.pos⟩, rfl, phrase_param ht (hids id hid).2⟩
  exact ⟨ids', hbare, t, us, u, rfl, ht, hread, hu⟩

theorem Spelled.places (hnames : ∀ id, some id ∈ items → IsName id.name)
    (hlast : items.getLast? ≠ some none) (h : Spelled (Lexeme.places items lead) ts) :
    ∃ items', items'.map (Option.map Ident.bare) = items.map (Option.map Ident.bare) ∧
      Places ts items' := by
  induction items generalizing lead ts with
  | nil =>
    obtain rfl := spelled_nil.1 h
    exact ⟨[], rfl, .nil⟩
  | cons item items ih =>
    have hrest : ∀ id, some id ∈ items → IsName id.name := fun id hid =>
      hnames id (mem_cons_of_mem _ hid)
    cases items with
    | nil =>
      cases item with
      | none => exact absurd rfl hlast
      | some id =>
        obtain ⟨t, rfl, ht, -⟩ := h.of_singleton
        exact ⟨[some ⟨id.name, t.pos⟩], rfl, .one ht (hnames id mem_cons_self).2⟩
    | cons item' items =>
      rw [getLast?_cons_cons] at hlast
      cases item with
      | none =>
        obtain ⟨t, us, rfl, ht, -, hus⟩ := h.of_cons
        obtain ⟨items', hbare, hread⟩ := ih hrest hlast hus
        exact ⟨none :: items', by rw [map_cons, hbare]; rfl, .hole ht hread⟩
      | some id =>
        obtain ⟨t, us, rfl, ht, -, hus⟩ := h.of_cons
        obtain ⟨u, vs, rfl, hu, -, hvs⟩ := hus.of_cons
        obtain ⟨items', hbare, hread⟩ := ih hrest hlast hvs
        exact ⟨some ⟨id.name, t.pos⟩ :: items', by rw [map_cons, hbare]; rfl,
          .name ht (hnames id mem_cons_self).2 hu hread⟩

theorem Printer.dropEnd_eq (h : items.getLast? ≠ some none) : dropEnd items = items := by
  have hhead : items.reverse.dropWhile Option.isNone = items.reverse := by
    rw [← head?_reverse] at h
    cases hitems : items.reverse with
    | nil => rfl
    | cons item rest =>
      rw [hitems] at h
      cases item with
      | none => exact absurd rfl h
      | some id => rfl
  rw [dropEnd, hhead, reverse_reverse]

def Pattern.bareProp (p : String × Ident) : String × Ident :=
  (p.1, p.2.bare)

theorem Spelled.patternProp {p : String × Ident} (hname : IsName p.2.name)
    (h : Spelled (Lexeme.patternProp p lead) ts) :
    ∃ p', Pattern.bareProp p' = Pattern.bareProp p ∧
      Phrase splits (fun _ => Parser.patternProp) ts p' := by
  unfold Lexeme.patternProp at h
  split at h
  · rename_i hown
    have hown : p.1 = p.2.name := eq_of_beq hown
    obtain ⟨t, rfl, ht, -⟩ := h.of_singleton
    exact ⟨(p.1, ⟨p.1, t.pos⟩), by simp [Pattern.bareProp, Ident.bare, hown],
      phrase_patternName ht (hown ▸ hname.2)⟩
  · obtain ⟨t, us, rfl, ht, -, hus⟩ := h.of_cons
    obtain ⟨u, vs, rfl, hu, -, hvs⟩ := hus.of_cons
    obtain ⟨v, rfl, hv, -⟩ := hvs.of_singleton
    exact ⟨(p.1, ⟨p.2.name, v.pos⟩), rfl, phrase_patternProp ht hu hv hname.2⟩

theorem Spelled.pattern {p : Pattern} (hp : p.Written) (hnames : p.All written)
    (h : Spelled (Lexeme.pattern p lead) ts) : ∃ p', p'.bare = p.bare ∧ Target ts p' := by
  cases p with
  | ident id =>
    obtain ⟨t, rfl, ht, -⟩ := h.of_singleton
    exact ⟨.ident ⟨id.name, t.pos⟩, rfl, target_ident ht (hnames id mem_cons_self).2⟩
  | object props =>
    obtain ⟨t, vs, u, rfl, ht, hvs, hu⟩ := h.of_around
    obtain ⟨props', hbare, hread⟩ := hvs.separated (g := Pattern.bareProp)
      fun p hmem {lead ts} hts => hts.patternProp (hnames p.2 (mem_map_of_mem hmem))
    exact ⟨.object props', congrArg Pattern.object hbare, target_object hread ht hu⟩
  | array items =>
    obtain ⟨t, vs, u, rfl, ht, hvs, hu⟩ := h.of_around
    rw [dropEnd_eq hp] at hvs
    obtain ⟨items', hbare, hread⟩ := hvs.places
      (fun id hid => hnames id (mem_filterMap.2 ⟨_, hid, rfl⟩)) hp
    exact ⟨.array items', congrArg Pattern.array hbare, target_array hread ht hu⟩

/-! ## Expressions -/

theorem Expr.listLexemes_eq_map (depth : Nat) (es : List Expr) :
    Expr.listLexemes depth es = es.map fun e l => e.lexemes depth l := by
  induction es with
  | nil => rfl
  | cons e rest ih => rw [Expr.listLexemes, ih, map_cons]

theorem Expr.listBare_eq_map (es : List Expr) : Expr.listBare es = es.map Expr.bare := by
  induction es with
  | nil => rfl
  | cons e rest ih => rw [Expr.listBare, ih, map_cons]

def Expr.propLexeme (depth : Nat) (p : String × Expr) (lead : List Char) : List Lexeme :=
  if p.2.isNamed p.1 then word p.1 lead else key p.1 lead :: mark ":" :: p.2.lexemes depth [' ']

theorem Expr.propLexemes_eq_map (depth : Nat) (props : List (String × Expr)) :
    Expr.propLexemes depth props = props.map (Expr.propLexeme depth) := by
  induction props with
  | nil => rfl
  | cons p rest ih => rw [Expr.propLexemes, ih, map_cons]; rfl

def Expr.bareProp (p : String × Expr) : String × Expr :=
  (p.1, p.2.bare)

theorem Expr.propBare_eq_map (props : List (String × Expr)) :
    Expr.propBare props = props.map Expr.bareProp := by
  induction props with
  | nil => rfl
  | cons p rest ih => rw [Expr.propBare, ih, map_cons]; rfl

theorem Spelled.list (hp : ∀ {ts : List Token} {e : Expr}, Assignment ts e → Phrase splits p ts e)
    (h : ∀ e ∈ es, Read (e.lexemes depth) (strength e) e)
    (hts : Spelled (Lexeme.separated (Expr.listLexemes depth es) lead) ts) :
    ∃ es', Expr.listBare es' = Expr.listBare es ∧ Separated splits p ts es' := by
  rw [Expr.listLexemes_eq_map] at hts
  obtain ⟨es', hbare, hread⟩ := hts.separated fun e he {lead ts} hts => by
    obtain ⟨e', hbare, he'⟩ := h e he hts
    exact ⟨e', hbare, hp he'.assignment⟩
  exact ⟨es', by rw [Expr.listBare_eq_map, hbare, Expr.listBare_eq_map], hread⟩

theorem Spelled.props {props : List (String × Expr)} (hnames : ∀ p ∈ props, p.2.All written)
    (h : ∀ p ∈ props, Read (p.2.lexemes depth) (strength p.2) p.2)
    (hts : Spelled (Lexeme.separated (Expr.propLexemes depth props) lead) ts) :
    ∃ props', Expr.propBare props' = Expr.propBare props ∧
      Separated splits Grammar.objectProp ts props' := by
  rw [Expr.propLexemes_eq_map] at hts
  obtain ⟨props', hbare, hread⟩ := hts.separated (g := Expr.bareProp) (r := Expr.bareProp)
    fun p hmem {lead ts} hts => by
      obtain ⟨x, e⟩ := p
      unfold Expr.propLexeme at hts
      split at hts
      · rename_i hown
        cases e with
        | ident id =>
          have hid : id.name = x := eq_of_beq hown
          obtain ⟨t, rfl, ht, -⟩ := hts.of_singleton
          exact ⟨(x, .ident ⟨x, t.pos⟩), by simp [Expr.bareProp, Expr.bare, Ident.bare, hid],
            shorthand ht (hid ▸ (hnames _ hmem).2)⟩
        | _ => cases hown
      · obtain ⟨t, us, rfl, ht, -, hus⟩ := hts.of_cons
        obtain ⟨u, vs, rfl, hu, -, hvs⟩ := hus.of_cons
        obtain ⟨e', hbare, he'⟩ := h _ hmem hvs
        refine ⟨(x, e'), by simp [Expr.bareProp, hbare], he'.assignment.property ?_ hu⟩
        rw [ht]
        split
        · exact .inl rfl
        · exact .inr rfl
  exact ⟨props', by rw [Expr.propBare_eq_map, hbare, Expr.propBare_eq_map], hread⟩

/-! ## Functions -/

/-- The parameters of an arrow function and its arrow. -/
theorem Spelled.arrowHead (hids : ∀ id ∈ ids, IsName id.name)
    (h : Spelled (Lexeme.head ids .arrow name lead) ts) :
    ∃ ps v ids', ts = ps ++ [v] ∧ Params ps ids' ∧ v.kind = .mark "=>" ∧ v.newlineBefore = false ∧
      ids'.map Ident.bare = ids.map Ident.bare := by
  have h : Spelled ((⟨lead, .mark "("⟩ :: Lexeme.params ids) ++ [spaced "=>"]) ts := h
  obtain ⟨ps, vs, rfl, hps, hvs⟩ := h.of_append
  obtain ⟨v, rfl, hv, hline⟩ := hvs.of_singleton
  obtain ⟨ids', hbare, hparams⟩ := hps.params hids
  exact ⟨ps, v, ids', rfl, hparams, hv, hline, hbare⟩

theorem Func.read_arrow {body body' : FuncBody} (hids : ∀ id ∈ ids, IsName id.name)
    (h : Spelled (Lexeme.head ids .arrow none lead) ts)
    (hbody : ∀ {ps : List Token} {v : Token} {ids' : List Ident}, Params ps ids' →
      v.kind = .mark "=>" → ∃ pos, FuncRule TokenKind.ends Grammar.arrowFunction (ps ++ v :: us)
        ⟨none, ids', body', .arrow, pos⟩) (hbare : body'.bare = body.bare) (pos : Position) :
    ∃ f, f.bare = (Func.mk none ids body .arrow pos).bare ∧ FuncPhrase .arrow (ts ++ us) f := by
  obtain ⟨ps, v, ids', rfl, hps, hv, hline, hids'⟩ := h.arrowHead hids
  obtain ⟨pos', hf⟩ := hbody hps hv
  obtain ⟨t, ps, rfl, ht⟩ := hps.starts
  refine ⟨⟨none, ids', body', .arrow, pos'⟩, by simp [Func.bare, hids', hbare], ?_⟩
  rw [append_assoc]
  exact .arrow ht (fun c => hps.arrowAhead hv hline) hf

theorem Func.read_classic (hname : ∀ id ∈ name, IsName id.name) (hids : ∀ id ∈ ids, IsName id.name)
    (h : Spelled (Lexeme.head ids .classic name lead) ts) (hb : Braced us stmts')
    (hbare : Stmt.listBare stmts' = Stmt.listBare stmts) (pos : Position) :
    ∃ f, f.bare = (Func.mk name ids (.block stmts) .classic pos).bare ∧
      FuncPhrase .classic (ts ++ us) f := by
  cases name with
  | none =>
    obtain ⟨t, vs, rfl, ht, -, hvs⟩ := h.of_cons
    obtain ⟨ids', hids', hps⟩ := hvs.params hids
    exact ⟨⟨none, ids', .block stmts', .classic, t.pos⟩,
      by simp [Func.bare, FuncBody.bare, hids', hbare],
      .classic ht nofun (classic_anonymous ht hps hb)⟩
  | some id =>
    obtain ⟨t, vs, rfl, ht, -, hvs⟩ := h.of_cons
    obtain ⟨n, ws, rfl, hn, -, hws⟩ := hvs.of_cons
    obtain ⟨ids', hids', hps⟩ := hws.params hids
    exact ⟨⟨some ⟨id.name, n.pos⟩, ids', .block stmts', .classic, t.pos⟩,
      by simp [Func.bare, FuncBody.bare, hids', hbare, Ident.bare],
      .classic ht (fun _ => ⟨n, _, _, rfl, hn⟩) (classic_named ht hn (hname id rfl).2 hps hb)⟩

/-! ## Statements -/

theorem Stmt.listBare_append (l l' : List Stmt) :
    Stmt.listBare (l ++ l') = Stmt.listBare l ++ Stmt.listBare l' := by
  induction l with
  | nil => rfl
  | cons s l ih => rw [cons_append, Stmt.listBare, ih, Stmt.listBare, cons_append]

/-- The statements between the braces of a body. -/
def Stmt.inner : Stmt → List Stmt
  | .block stmts => stmts
  | s => [s]

theorem Stmt.braced_eq (s : Stmt) : s.braced = .block s.inner := by
  cases s <;> rfl

/-- The statements that are left of a statement, as it stands or between braces. -/
def Stmt.parts (braced : Bool) (s : Stmt) : List Stmt :=
  if braced then s.inner else [s]

/-- A statement is read, up to positions, from tokens. -/
def Stmt.Read (braced : Bool) (ts : List Token) (s : Stmt) : Prop :=
  ∃ stmts, Stmt.listBare stmts = s.bare.parts braced ∧ Statements ts stmts

theorem Stmt.Read.of_statement {braced : Bool} {s' : Stmt} (h : Statement separates ts s')
    (hbare : s'.bare = s.bare) (hinner : s.bare.inner = [s.bare]) : s.Read braced ts := by
  refine ⟨[s'], ?_, by simpa using Statements.cons h .nil⟩
  rw [Stmt.listBare, Stmt.listBare, hbare]
  cases braced with
  | true => exact hinner.symm
  | false => rfl

/-- A body in braces is read as a block of what stands between them. -/
theorem Stmt.Read.body (h : s.Read true ts) (hx : x.kind = .mark "\x7b")
    (hy : y.kind = .mark "\x7d") :
    ∃ s', s'.bare.braced = s.bare.braced ∧ Statement anything (x :: (ts ++ [y])) s' := by
  obtain ⟨stmts, hbare, hstmts⟩ := h
  refine ⟨.block stmts, ?_, .block ⟨x, ts, y, rfl, hx, hstmts, hy⟩⟩
  rw [s.bare.braced_eq, Stmt.bare, Stmt.braced, hbare]
  rfl

/-- What follows the body of a branch is read: its closing brace, and what to do
otherwise. -/
inductive Stmt.ElseRead : Option Stmt → List Token → Prop where
  | closed {y : Token} : y.kind = .mark "\x7d" → Stmt.ElseRead none [y]
  | otherwise {y t : Token} {ts : List Token} {s s' : Stmt} : y.kind = .mark "\x7d" →
    t.kind = .word "else" → s'.bare.braced = s.bare.braced → Statement separates ts s' →
    Stmt.ElseRead (some s) (y :: t :: ts)

theorem Stmt.ElseRead.of_body (hbranch : ∀ test c a, s ≠ .branch test c a)
    (hs : ∀ {ts : List Token}, Spelled (s.lexemes (depth + 1) true) ts → s.Read true ts)
    (hts : Spelled (Stmt.elseLexemes depth (some s)) ts) : Stmt.ElseRead (some s) ts := by
  have hlexemes : Stmt.elseLexemes depth (some s) = ⟨newline depth, .mark "\x7d"⟩ ::
      ⟨[' '], .word "else"⟩ :: spaced "\x7b" ::
        (s.lexemes (depth + 1) true ++ [⟨newline depth, .mark "\x7d"⟩]) := by
    cases s with
    | branch test c a => exact absurd rfl (hbranch test c a)
    | _ => rfl
  rw [hlexemes] at hts
  obtain ⟨y, us, rfl, hy, -, hus⟩ := hts.of_cons
  obtain ⟨t, us, rfl, ht, -, hus⟩ := hus.of_cons
  obtain ⟨x, bs, z, rfl, hx, hbs, hz⟩ := hus.of_around
  obtain ⟨s', hbare, hread⟩ := (hs hbs).body hx hz
  exact .otherwise hy ht hbare hread.before_anything

theorem Stmt.Read.branch {test test' : Expr} {consequent : Stmt} {alternate : Option Stmt}
    {t t₁ t₂ : Token} {bs es : List Token} (h : consequent.Read true bs) (ht : t.kind = .word "if")
    (ht₁ : t₁.kind = .mark "(") (htest : Assignment ts test') (hbare : test'.bare = test.bare)
    (ht₂ : t₂.kind = .mark ")") (hx : x.kind = .mark "\x7b") (helse : Stmt.ElseRead alternate es) :
    ∃ s', s'.bare = (Stmt.branch test consequent alternate).bare ∧
      Statement separates (t :: t₁ :: (ts ++ t₂ :: x :: (bs ++ es))) s' := by
  cases helse with
  | closed hy =>
    obtain ⟨s', hs', hread⟩ := h.body hx hy
    exact ⟨.branch test' s' none, by simp [Stmt.bare, hbare, hs', Stmt.optBare],
      .branch ht ht₁ htest ht₂ hread⟩
  | otherwise hy ht₃ hother hread' =>
    rename_i y t₃ us s s''
    obtain ⟨s', hs', hread⟩ := h.body hx hy
    refine ⟨.branch test' s' (some s''), by simp [Stmt.bare, hbare, hs', Stmt.optBare, hother], ?_⟩
    have hall := Statement.branchElse ht ht₁ htest ht₂ hread ht₃ hread'
    simpa using hall

theorem Parser.FuncPhrase.statement (h : FuncPhrase style ts f)
    (hstyle : style = .classic) (hname : f.name.isSome = true) :
    Statement anything ts (.func f) := by
  cases h with
  | arrow => cases hstyle
  | classic ht hword h =>
    obtain ⟨n, us, w, rfl, hn⟩ := hword hname
    exact .func ht hn h

theorem Func.isSome_name_of_bare {f' : Func} (h : f'.bare = f.bare) (hf : f.name.isSome = true) :
    f'.name.isSome = true := by
  obtain ⟨name, ids, body, style, pos⟩ := f
  obtain ⟨name', ids', body', style', pos'⟩ := f'
  simp only [Func.bare, Func.mk.injEq] at h
  have := congrArg Option.isSome h.1
  simpa [hf] using this

def Declarator.bare (d : Declarator) : Declarator :=
  ⟨d.target.bare, Expr.optBare d.init, {}⟩

theorem Declarator.listBare_eq_map (ds : List Declarator) :
    listBare ds = ds.map bare := by
  induction ds with
  | nil => rfl
  | cons d rest ih =>
    obtain ⟨target, init, pos⟩ := d
    rw [listBare, ih, map_cons]
    rfl

def Declarator.lexemes (depth : Nat) : Declarator → List Char → List Lexeme
  | ⟨target, none, _⟩, lead => Lexeme.pattern target lead
  | ⟨target, some e, _⟩, lead => Lexeme.pattern target lead ++ spaced "=" :: e.lexemes depth [' ']

theorem Declarator.listLexemes_eq_map (depth : Nat) (ds : List Declarator) :
    listLexemes depth ds = ds.map (lexemes depth) := by
  induction ds with
  | nil => rfl
  | cons d rest ih =>
    obtain ⟨target, _ | e, pos⟩ := d <;> rw [listLexemes, ih, map_cons] <;> rfl

theorem Spelled.decl {kind : DeclKind} {ds : List Declarator} (hne : ds ≠ [])
    (h : ∀ d ∈ ds, ∀ {lead : List Char} {ts : List Token}, Spelled (d.lexemes depth lead) ts →
      ∃ d', bare d' = d.bare ∧ Phrase lists Grammar.declarator ts d')
    (hts : Spelled (Decl.lexemes depth ⟨kind, ds⟩ lead) ts) :
    ∃ t us ds', ts = t :: us ∧ t.kind = .word kind.keyword ∧ ds' ≠ [] ∧
      listBare ds' = listBare ds ∧ Declarators us ds' := by
  cases ds with
  | nil => exact absurd rfl hne
  | cons d ds =>
    obtain ⟨t, us, rfl, ht, -, hus⟩ := hts.of_cons
    rw [listLexemes_eq_map] at hus
    obtain ⟨ds', hbare, hread⟩ := hus.separated h
    refine ⟨t, us, ds', rfl, ht, ?_, by rw [listBare_eq_map, hbare, listBare_eq_map], hread⟩
    rintro rfl
    cases hbare

/-- An expression that begins neither with a brace nor with `function` may stand as a
statement. -/
theorem Expr.beginsLine_leading (he : e.All written)
    (htext : (begins (e.text depth) "\x7b" || begins (e.text depth) "function") = false) :
    beginsLine e.leading = true := by
  obtain ⟨tail, htail⟩ := e.head_lexemes depth []
  have htoList := e.make_lexemes depth []
  rw [htail, spell_cons, List.nil_append, List.nil_append] at htoList
  have hbegins : ∀ start : String, start.toList = e.leading.spelling →
      begins (e.text depth) start = true := by
    intro start hstart
    rw [begins, ← htoList, hstart, List.isPrefixOf_iff_prefix]
    exact prefix_append _ _
  have hleading := e.begins_leading he
  cases hk : e.leading with
  | word w =>
    rw [hk] at hleading
    rcases hleading.2 with hw | hw
    · simp [beginsLine, hw]
    · have hfunction : w ≠ "function" := by
        rintro rfl
        rw [hbegins "function" (by rw [hk]; rfl), Bool.or_true] at htext
        cases htext
      simp [beginsLine, hw, hfunction]
  | mark m =>
    rw [hk] at hleading
    have hm : m ∈ ["(", "[", "\x7b", "!", "-", "+", "++", "--"] := hleading
    have hbrace : m ≠ "\x7b" := by
      rintro rfl
      rw [hbegins "\x7b" (by rw [hk]; rfl), Bool.true_or] at htext
      cases htext
    simp only [mem_cons, not_mem_nil, or_false, hbrace, false_or] at hm
    rcases hm with rfl | rfl | rfl | rfl | rfl | rfl | rfl <;> decide
  | eof =>
    rw [hk] at hleading
    exact hleading.elim
  | number _ | str _ => rfl

theorem TokenKind.Begins.not_decl {k : TokenKind} (h : k.Begins) :
    (Grammar.declKind? k).isNone = true := by
  cases k with
  | word w =>
    have hne : ∀ v, isReserved v = true → Grammar.beginsExpression v = false → w ≠ v := by
      rintro v hv hv' rfl
      rcases h.2 with hw | hw
      · rw [hv] at hw
        cases hw
      · rw [hv'] at hw
        cases hw
    simp [Grammar.declKind?, hne "const" (by decide) (by decide), hne "let" (by decide) (by decide),
      hne "var" (by decide) (by decide)]
  | _ => rfl

mutual

/-- **An expression is read back from its tokens.** -/
theorem Expr.read (depth : Nat) (e : Expr) (he : e.All written) :
    Read (e.lexemes depth) (strength e) e := by
  intro lead ts hts
  match e with
  | .number x =>
    obtain ⟨t, rfl, ht, -⟩ := hts.of_singleton
    refine ⟨.number x, rfl, .of_chain (.number ht) ?_⟩
    show 14 ≤ if Number.isNegative x && !x.isNaN then unaryStrength else primaryStrength
    split <;> decide
  | .str s => exact Read.literal hts .str
  | .bool b => exact Read.literal hts .bool
  | .null => exact Read.literal hts .null
  | .undefined => exact Read.literal hts .undefined
  | .this => exact Read.literal hts .this
  | .ident id =>
    obtain ⟨t, rfl, ht, -⟩ := hts.of_singleton
    exact ⟨.ident ⟨id.name, t.pos⟩, rfl, .of_chain (.ident ht he.2) le_primary⟩
  | .member base property =>
    obtain ⟨us, t, ws, rfl, hus, ht, hws⟩ := hts.of_middle
    obtain ⟨u, rfl, hu, -⟩ := hws.of_singleton
    obtain ⟨base', hbare, hchain⟩ := Read.operand (base.read depth he.2) hus
    exact ⟨.member base' property, by simp [Expr.bare, hbare],
      .of_chain (hchain.member ht hu) le_access⟩
  | .index base sub =>
    obtain ⟨us, vs, rfl, hus, hvs⟩ := hts.of_append
    obtain ⟨t, xs, u, rfl, ht, hxs, hu⟩ := hvs.of_around
    obtain ⟨base', hbare, hchain⟩ := Read.operand (base.read depth he.2.1) hus
    obtain ⟨sub', hsub, hread⟩ := sub.read depth he.2.2 hxs
    exact ⟨.index base' sub', by simp [Expr.bare, hbare, hsub],
      .of_chain (hchain.index ht hread.assignment hu) le_access⟩
  | .call callee args =>
    obtain ⟨us, vs, rfl, hus, hvs⟩ := hts.of_append
    obtain ⟨t, xs, u, rfl, ht, hxs, hu⟩ := hvs.of_around
    obtain ⟨callee', hbare, hchain⟩ := Read.operand (callee.read depth he.2.1) hus
    obtain ⟨args', hargs, hread⟩ := hxs.list Phrase.item (Expr.listRead depth args he.2.2)
    exact ⟨.call callee' args', by simp [Expr.bare, hbare, hargs],
      .of_chain (hchain.call ht hread hu) le_access⟩
  | .unary op arg =>
    obtain ⟨t, us, rfl, ht, -, hus⟩ := hts.of_cons
    obtain ⟨arg', hbare, hread⟩ := Read.parensIf (arg.read depth he.2) _ hus
    refine ⟨.unary op arg', by simp [Expr.bare, hbare],
      .of_unary (.sign ht (hread.unary ?_)) unary_range⟩
    split
    · decide
    · rename_i hstrength
      exact Nat.not_lt.1 fun h => hstrength (decide_eq_true h)
  | .update op true target =>
    obtain ⟨t, us, rfl, ht, -, hus⟩ := hts.of_cons
    obtain ⟨target', hbare, hchain⟩ := Read.operand (target.read depth he.2) hus
    exact ⟨.update op true target', by simp [Expr.bare, hbare],
      .of_unary (.update ht (.of_chain hchain) ((Expr.isTarget_of_bare hbare).trans he.1))
        unary_range⟩
  | .update op false target =>
    obtain ⟨us, vs, rfl, hus, hvs⟩ := hts.of_append
    obtain ⟨t, rfl, ht, hline⟩ := hvs.of_singleton
    obtain ⟨target', hbare, hchain⟩ := Read.operand (target.read depth he.2) hus
    exact ⟨.update op false target', by simp [Expr.bare, hbare],
      .of_unary (.after hchain ((Expr.isTarget_of_bare hbare).trans he.1) ht hline) post_range⟩
  | .binary op left right =>
    obtain ⟨us, t, ws, rfl, hus, ht, hws⟩ := hts.of_middle
    obtain ⟨left', hleft, hl⟩ := Read.parensIf (left.read depth he.2.1) _ hus
    obtain ⟨right', hright, hr⟩ := Read.parensIf (right.read depth he.2.2) _ hws
    obtain ⟨hlk, hstops⟩ := BinaryOp.stops_left ht rfl
    obtain ⟨hrk, hle⟩ := BinaryOp.rightPrecedence_le rfl
    refine ⟨.binary op left' right', by simp [Expr.bare, hleft, hright], ?_⟩
    exact .of_joined (Joined.join (hl.joined hlk) ht (hr.joined hrk) hstops hle)
      op.precedence_range.1 op.precedence_range.2
  | .logical op left right =>
    obtain ⟨us, t, ws, rfl, hus, ht, hws⟩ := hts.of_middle
    obtain ⟨left', hleft, hl⟩ := Read.parensIf (left.read depth he.2.1) _ hus
    obtain ⟨right', hright, hr⟩ := Read.parensIf (right.read depth he.2.2) _ hws
    obtain ⟨hlk, hstops⟩ := LogicalOp.stops_left ht rfl
    obtain ⟨hrk, hle⟩ := LogicalOp.rightPrecedence_le rfl
    refine ⟨.logical op left' right', by simp [Expr.bare, hleft, hright], ?_⟩
    exact .of_joined (Joined.join (hl.joined hlk) ht (hr.joined hrk) hstops hle)
      op.precedence_range.1 op.precedence_range.2
  | .conditional test consequent alternate =>
    obtain ⟨us, t, ws, rfl, hus, ht, hws⟩ := hts.of_middle
    obtain ⟨xs, u, zs, rfl, hxs, hu, hzs⟩ := hws.of_middle
    obtain ⟨test', htest, hread⟩ := Read.parensIf (test.read depth he.2.1) _ hus
    obtain ⟨consequent', hconsequent, hthen⟩ := consequent.read depth he.2.2.1 hxs
    obtain ⟨alternate', halternate, helse⟩ := alternate.read depth he.2.2.2 hzs
    have hstrength : 2 < if decide (strength test ≤ conditionalStrength) = true then primaryStrength
        else strength test := by
      split
      · decide
      · rename_i h
        exact Nat.not_le.1 fun hle => h (decide_eq_true hle)
    exact ⟨.conditional test' consequent' alternate',
      by simp [Expr.bare, htest, hconsequent, halternate],
      .of_assignment (.conditional (hread.joined hstrength) (lt_min hstrength (by decide)) ht
        hthen.assignment hu helse.assignment) (Nat.le_refl _)⟩
  | .assign op target value =>
    obtain ⟨us, t, ws, rfl, hus, ht, hws⟩ := hts.of_middle
    obtain ⟨target', htarget, hchain⟩ := Read.operand (target.read depth he.2.1) hus
    obtain ⟨value', hvalue, hread⟩ := value.read depth he.2.2 hws
    exact ⟨.assign op target' value', by simp [Expr.bare, htarget, hvalue],
      .of_assignment (.assign (.of_unary (.of_chain hchain)) (by decide)
        ((Expr.isTarget_of_bare htarget).trans he.1) ht hread.assignment) (Nat.le_succ _)⟩
  | .array items =>
    obtain ⟨t, vs, u, rfl, ht, hvs, hu⟩ := hts.of_around
    obtain ⟨items', hbare, hread⟩ := hvs.list Assignment.arrayItem (Expr.listRead depth items he.2)
    exact ⟨.array items', by simp [Expr.bare, hbare], .of_chain (.array hread ht hu) le_primary⟩
  | .object [] =>
    obtain ⟨t, us, rfl, ht, -, hus⟩ := hts.of_cons
    obtain ⟨u, rfl, hu, -⟩ := hus.of_singleton
    exact ⟨.object [], rfl, .of_chain (.object .nil ht hu) le_primary⟩
  | .object (p :: props) =>
    obtain ⟨t, vs, u, rfl, ht, hvs, hu⟩ := hts.of_around
    obtain ⟨props', hbare, hread⟩ := hvs.props (Expr.propAll_iff.1 he.2)
      (Expr.propRead depth (p :: props) he.2)
    exact ⟨.object props', by simp [Expr.bare, hbare], .of_chain (.object hread ht hu) le_primary⟩
  | .func f =>
    obtain ⟨f', hbare, hf'⟩ := f.read depth he.1 he.2 hts
    exact ⟨.func f', by simp [Expr.bare, hbare], hf'.graded⟩

theorem Expr.listRead (depth : Nat) (es : List Expr) (he : Expr.ListAll written es) :
    ∀ e ∈ es, Read (e.lexemes depth) (strength e) e := by
  match es with
  | [] => exact fun _ h => by cases h
  | e :: rest => exact forall_mem_cons.2 ⟨e.read depth he.1, Expr.listRead depth rest he.2⟩

theorem Expr.propRead (depth : Nat) (props : List (String × Expr))
    (he : Expr.PropAll written props) :
    ∀ p ∈ props, Read (p.2.lexemes depth) (strength p.2) p.2 := by
  match props with
  | [] => exact fun _ h => by cases h
  | (x, e) :: rest => exact forall_mem_cons.2 ⟨e.read depth he.1, Expr.propRead depth rest he.2⟩

theorem Func.read (depth : Nat) (f : Func) (hwritten : f.Written) (hf : f.All written)
    {lead : List Char} {ts : List Token} (hts : Spelled (f.lexemes depth lead) ts) :
    ∃ f', f'.bare = f.bare ∧ FuncPhrase f.style ts f' := by
  match f with
  | ⟨name, ids, .block stmts, style, pos⟩ =>
    obtain ⟨us, vs, rfl, hus, hvs⟩ := hts.of_append
    obtain ⟨x, zs, y, rfl, hx, hzs, hy⟩ := hvs.of_around
    obtain ⟨stmts', hbare, hstmts⟩ := Stmt.listRead (depth + 1) stmts hf.2 hzs
    have hb : Braced (x :: (zs ++ [y])) stmts' := ⟨x, zs, y, rfl, hx, hstmts, hy⟩
    cases style with
    | arrow =>
      cases (show name = none from hwritten)
      exact Func.read_arrow hf.1 hus (fun hps hv => arrow_block hps hv hb)
        (by simp [FuncBody.bare, hbare]) pos
    | classic => exact Func.read_classic hwritten hf.1 hus hb hbare pos
  | ⟨name, ids, .expr e, style, pos⟩ =>
    cases style with
    | classic => exact hwritten.elim
    | arrow =>
      obtain ⟨rfl, hbrace⟩ := hwritten
      obtain ⟨us, vs, rfl, hus, hvs⟩ := hts.of_append
      obtain ⟨e', hbare, hread⟩ := Read.parensIf (e.read depth hf.2) e.isObject hvs
      refine Func.read_arrow hf.1 hus (fun hps hv => arrow_expr hps hv hread.assignment ?_)
        (by simp [FuncBody.bare, hbare]) pos
      refine hvs.starts (head_parensIf (e.head_lexemes depth) _) ?_
      rcases hbrace with hobject | hleading
      · rw [hobject]
        rfl
      · unfold TokenKind.opened
        split
        · decide
        · simp [hleading]

theorem Stmt.listRead (depth : Nat) (stmts : List Stmt) (hs : Stmt.ListAll written stmts)
    {ts : List Token} (hts : Spelled (Stmt.listLexemes depth stmts) ts) :
    ∃ stmts', Stmt.listBare stmts' = Stmt.listBare stmts ∧ Statements ts stmts' := by
  match stmts with
  | [] =>
    obtain rfl := spelled_nil.1 hts
    exact ⟨[], rfl, .nil⟩
  | s :: rest =>
    obtain ⟨us, vs, rfl, hus, hvs⟩ := hts.of_append
    obtain ⟨first, hfirst, hreads⟩ := s.read depth false hs.1 hus
    obtain ⟨others, hothers, hrest⟩ := Stmt.listRead depth rest hs.2 hvs
    exact ⟨first ++ others, by rw [Stmt.listBare_append, hfirst, hothers]; rfl, hreads.append hrest⟩

theorem Declarator.listRead (depth : Nat) (ds : List Declarator)
    (hds : ∀ d ∈ ds, d.target.Written ∧ (d.init = none → ∃ id, d.target = .ident id))
    (hd : Declarator.ListAll written ds) :
    ∀ d ∈ ds, ∀ {lead : List Char} {ts : List Token}, Spelled (d.lexemes depth lead) ts →
      ∃ d', bare d' = d.bare ∧ Phrase lists Grammar.declarator ts d' := by
  match ds with
  | [] => exact fun _ h => by cases h
  | ⟨target, none, pos⟩ :: rest =>
    obtain ⟨⟨hwritten, hident⟩, hrest⟩ := forall_mem_cons.1 hds
    refine forall_mem_cons.2 ⟨fun {lead ts} hts => ?_, Declarator.listRead depth rest hrest hd.2.2⟩
    obtain ⟨id, rfl⟩ := hident rfl
    obtain ⟨t, rfl, ht, -⟩ := hts.of_singleton
    obtain ⟨pos', hread⟩ := declarator_ident (target_ident ht (hd.1 id mem_cons_self).2)
    exact ⟨⟨.ident ⟨id.name, t.pos⟩, none, pos'⟩, rfl, hread⟩
  | ⟨target, some e, pos⟩ :: rest =>
    obtain ⟨⟨hwritten, -⟩, hrest⟩ := forall_mem_cons.1 hds
    refine forall_mem_cons.2 ⟨fun {lead ts} hts => ?_, Declarator.listRead depth rest hrest hd.2.2⟩
    obtain ⟨us, t, ws, rfl, hus, ht, hws⟩ := hts.of_middle
    obtain ⟨target', htarget, hread⟩ := hus.pattern hwritten hd.1
    obtain ⟨e', hbare, he'⟩ := e.read depth hd.2.1 hws
    obtain ⟨pos', hread⟩ := declarator_init hread ht he'.assignment
    exact ⟨⟨target', some e', pos'⟩, by simp [bare, htarget, Expr.optBare, hbare], hread⟩

theorem Expr.optRead (depth : Nat) (e? : Option Expr) (he : Expr.OptAll written e?) {m : String}
    (hm : (TokenKind.mark m).ends = true) (hcomma : m ≠ ",") {lead : List Char} {ts : List Token}
    (hts : Spelled (Expr.optLexemes depth e? lead) ts) :
    ∃ e?', Expr.optBare e?' = Expr.optBare e? ∧ Part m (fun g => g.before? m) ts e?' := by
  match e? with
  | none =>
    obtain rfl := spelled_nil.1 hts
    exact ⟨none, rfl, .none m⟩
  | some e =>
    obtain ⟨e', hbare, he'⟩ := e.read depth he hts
    exact ⟨some e', by simp [Expr.optBare, hbare], .some he'.assignment hm hcomma⟩

theorem ForInit.optRead (depth : Nat) (init : Option ForInit) (hs : ForInit.OptAll written init)
    {ts : List Token} (hts : Spelled (ForInit.optLexemes depth init) ts) :
    ∃ init', ForInit.optBare init' = ForInit.optBare init ∧ Part ";" Grammar.forInit ts init' := by
  match init with
  | none =>
    obtain rfl := spelled_nil.1 hts
    exact ⟨none, rfl, .noInit⟩
  | some (.decl ⟨kind, ds⟩) =>
    obtain ⟨t, us, ds', rfl, ht, hne, hbare, hread⟩ :=
      Spelled.decl hs.1.1 (Declarator.listRead depth ds hs.1.2 hs.2) hts
    exact ⟨some (.decl ⟨kind, ds'⟩), by simp [ForInit.optBare, hbare], .initDecl ht hread hne⟩
  | some (.expr e) =>
    obtain ⟨e', hbare, he'⟩ := e.read depth hs hts
    exact ⟨some (.expr e'), by simp [ForInit.optBare, hbare],
      .initExpr he'.assignment (hts.starts (e.head_lexemes depth [])
        (e.begins_leading hs).not_decl)⟩

theorem Stmt.elseRead (depth : Nat) (alternate : Option Stmt) (hs : Stmt.OptAll written alternate)
    {ts : List Token} (hts : Spelled (Stmt.elseLexemes depth alternate) ts) :
    Stmt.ElseRead alternate ts := by
  match alternate with
  | none =>
    obtain ⟨y, rfl, hy, -⟩ := hts.of_singleton
    exact .closed hy
  | some (.branch test consequent alternate) =>
    obtain ⟨y, us, rfl, hy, -, hus⟩ := hts.of_cons
    obtain ⟨t₀, us, rfl, ht₀, -, hus⟩ := hus.of_cons
    obtain ⟨t, us, rfl, ht, -, hus⟩ := hus.of_cons
    obtain ⟨t₁, us, rfl, ht₁, -, hus⟩ := hus.of_cons
    obtain ⟨ts₁, t₂, us, rfl, htest, ht₂, hus⟩ := hus.of_middle
    obtain ⟨x, us, rfl, hx, -, hus⟩ := hus.of_cons
    obtain ⟨bs, es, rfl, hbs, hes⟩ := hus.of_append
    obtain ⟨test', hbare, hread⟩ := test.read depth hs.1 htest
    obtain ⟨s', hs', hstatement⟩ := (consequent.read (depth + 1) true hs.2.1 hbs).branch ht ht₁
      hread.assignment hbare ht₂ hx (Stmt.elseRead depth alternate hs.2.2 hes)
    exact .otherwise hy ht₀ (congrArg Stmt.braced hs') hstatement
  | some (.decl _) | some (.expr _) | some (.forLoop ..) | some (.whileLoop ..) | some (.block _)
  | some (.ret _) | some .breakLoop | some .continueLoop | some (.func _) | some .empty =>
    refine Stmt.ElseRead.of_body ?_ (Stmt.read (depth + 1) true _ hs) hts
    nofun

theorem Stmt.read (depth : Nat) (braced : Bool) (s : Stmt) (hs : s.All written) {ts : List Token}
    (hts : Spelled (s.lexemes depth braced) ts) : s.Read braced ts := by
  match s with
  | .decl ⟨kind, ds⟩ =>
    obtain ⟨us, vs, rfl, hus, hvs⟩ := hts.of_append
    obtain ⟨u, rfl, hu, -⟩ := hvs.of_singleton
    obtain ⟨t, us, ds', rfl, ht, hne, hbare, hread⟩ :=
      Spelled.decl hs.1.1 (Declarator.listRead depth ds hs.1.2 hs.2) hus
    exact .of_statement (Statement.decl ht hread hne hu).before_anything
      (by simp [Stmt.bare, hbare]) rfl
  | .expr e =>
    obtain ⟨us, vs, rfl, hus, hvs⟩ := hts.of_append
    obtain ⟨u, rfl, hu, -⟩ := hvs.of_singleton
    obtain ⟨e', hbare, he'⟩ := Read.parensIf (e.read depth hs) _ hus
    refine .of_statement (Statement.expr he'.assignment ?_ hu).before_anything
      (by simp [Stmt.bare, hbare]) rfl
    refine hus.starts (head_parensIf (e.head_lexemes depth) _) ?_
    unfold TokenKind.opened
    split
    · decide
    · rename_i htext
      exact Expr.beginsLine_leading hs (Bool.not_eq_true _ ▸ htext)
  | .branch test consequent alternate =>
    obtain ⟨t, us, rfl, ht, -, hus⟩ := hts.of_cons
    obtain ⟨t₁, us, rfl, ht₁, -, hus⟩ := hus.of_cons
    obtain ⟨ts₁, t₂, us, rfl, htest, ht₂, hus⟩ := hus.of_middle
    obtain ⟨x, us, rfl, hx, -, hus⟩ := hus.of_cons
    obtain ⟨bs, es, rfl, hbs, hes⟩ := hus.of_append
    obtain ⟨test', hbare, hread⟩ := test.read depth hs.1 htest
    obtain ⟨s', hs', hstatement⟩ := (consequent.read (depth + 1) true hs.2.1 hbs).branch ht ht₁
      hread.assignment hbare ht₂ hx (Stmt.elseRead depth alternate hs.2.2 hes)
    exact .of_statement hstatement hs' rfl
  | .forLoop init test update body =>
    obtain ⟨t, us, rfl, ht, -, hus⟩ := hts.of_cons
    obtain ⟨t₁, us, rfl, ht₁, -, hus⟩ := hus.of_cons
    obtain ⟨ts₁, t₂, us, rfl, hinit, ht₂, hus⟩ := hus.of_middle
    obtain ⟨ts₂, t₃, us, rfl, htest, ht₃, hus⟩ := hus.of_middle
    obtain ⟨ts₃, t₄, us, rfl, hupdate, ht₄, hus⟩ := hus.of_middle
    obtain ⟨x, bs, y, rfl, hx, hbs, hy⟩ := hus.of_around
    obtain ⟨init', hinit', hread₁⟩ := ForInit.optRead depth init hs.1 hinit
    obtain ⟨test', htest', hread₂⟩ := Expr.optRead depth test hs.2.1 (m := ";") (by decide)
      (by decide) htest
    obtain ⟨update', hupdate', hread₃⟩ :=
      Expr.optRead depth update hs.2.2.1 (m := ")") (by decide) (by decide) hupdate
    obtain ⟨body', hbody', hread₄⟩ := (body.read (depth + 1) true hs.2.2.2 hbs).body hx hy
    exact .of_statement (Statement.forLoop ht ht₁ hread₁ ht₂ hread₂ ht₃ hread₃ ht₄
      hread₄.before_anything)
      (by simp [Stmt.bare, hinit', htest', hupdate', hbody']) rfl
  | .whileLoop test body =>
    obtain ⟨t, us, rfl, ht, -, hus⟩ := hts.of_cons
    obtain ⟨t₁, us, rfl, ht₁, -, hus⟩ := hus.of_cons
    obtain ⟨ts₁, t₂, us, rfl, htest, ht₂, hus⟩ := hus.of_middle
    obtain ⟨x, bs, y, rfl, hx, hbs, hy⟩ := hus.of_around
    obtain ⟨test', htest', hread₁⟩ := test.read depth hs.1 htest
    obtain ⟨body', hbody', hread₂⟩ := (body.read (depth + 1) true hs.2 hbs).body hx hy
    exact .of_statement (Statement.whileLoop ht ht₁ hread₁.assignment ht₂ hread₂.before_anything)
      (by simp [Stmt.bare, htest', hbody']) rfl
  | .block stmts =>
    cases braced with
    | true => exact Stmt.listRead depth stmts hs hts
    | false =>
      obtain ⟨x, bs, y, rfl, hx, hbs, hy⟩ := hts.of_around
      obtain ⟨stmts', hbare, hread⟩ := Stmt.listRead (depth + 1) stmts hs hbs
      exact ⟨[.block stmts'], by simp [Stmt.listBare, Stmt.bare, hbare, Stmt.parts],
        by simpa using
          Statements.cons (Statement.block ⟨x, bs, y, rfl, hx, hread, hy⟩).before_anything .nil⟩
  | .ret none =>
    obtain ⟨t, us, rfl, ht, -, hus⟩ := hts.of_cons
    obtain ⟨u, rfl, hu, -⟩ := hus.of_singleton
    exact .of_statement (Statement.ret ht hu).before_anything rfl rfl
  | .ret (some e) =>
    obtain ⟨t, bs, u, rfl, ht, hbs, hu⟩ := hts.of_around
    obtain ⟨e', hbare, he'⟩ := e.read depth hs hbs
    obtain ⟨tail, hhead⟩ := e.head_lexemes depth [' ']
    rw [hhead] at hbs
    obtain ⟨v, ws, rfl, -, hline, -⟩ := hbs.of_cons
    exact .of_statement (Statement.retSome ht he'.assignment hline hu).before_anything
      (by simp [Stmt.bare, Expr.optBare, hbare]) rfl
  | .breakLoop =>
    obtain ⟨t, us, rfl, ht, -, hus⟩ := hts.of_cons
    obtain ⟨u, rfl, hu, -⟩ := hus.of_singleton
    exact .of_statement (Statement.breakLoop ht hu).before_anything rfl rfl
  | .continueLoop =>
    obtain ⟨t, us, rfl, ht, -, hus⟩ := hts.of_cons
    obtain ⟨u, rfl, hu, -⟩ := hus.of_singleton
    exact .of_statement (Statement.continueLoop ht hu).before_anything rfl rfl
  | .func f =>
    obtain ⟨f', hbare, hf'⟩ := f.read depth hs.1.1 hs.2.2 hts
    exact .of_statement (hf'.statement hs.1.2.1
      (Func.isSome_name_of_bare hbare hs.1.2.2)).before_anything
      (by simp [Stmt.bare, hbare]) rfl
  | .empty =>
    obtain ⟨t, rfl, ht, -⟩ := hts.of_singleton
    exact .of_statement (Statement.empty ht).before_anything rfl rfl

end

end BarScript

import BarScript.Proofs.Passes.Normal

/-!
# Temporaries

The tuples of a script are kept in temporaries, and a temporary must not hide a name of
the script. Before the first one is drawn, every name that the script writes is reserved:
the names of a tree reach every identifier of it, at any depth, so what holds of the names
holds of the identifiers. The search for a temporary tries one number after the other and
passes over reserved names only, so it ends after at most as many steps as there are
names, and no number is tried twice.
-/

namespace BarScript

open List NormalForm Scopes

/-! ## All identifiers -/

/-- Trees whose identifiers all satisfy `P`: those referred to, those declared, parameters,
and names of functions. -/
def Shape.spelling (P : String → Prop) : Shape where
  expr
    | .ident id => P id.name
    | .func f => ∀ id ∈ f.name, P id.name
    | _ => True
  name := P

variable {P : String → Prop}

theorem Func.head_spelling {n : Option Ident} {ids : List Ident} {b : FuncBody}
    (hb : b.All (.spelling P)) (h : ∀ x ∈ (n.map Ident.name).toList ++ ids.map Ident.name, P x) :
    (∀ id ∈ n, P id.name) ∧ (∀ id ∈ ids, P id.name) ∧ b.All (.spelling P) := by
  obtain ⟨hname, hparams⟩ := forall_mem_append.1 h
  refine ⟨?_, fun id hid => hparams _ (mem_map_of_mem hid), hb⟩
  rintro id ⟨⟩
  exact hname _ mem_cons_self

mutual

/-- What holds of the names of an expression holds of all identifiers in it. -/
theorem Expr.all_spelling (e : Expr) (h : ∀ x ∈ e.names, P x) : e.All (.spelling P) := by
  match e with
  | .ident id => exact h _ mem_cons_self
  | .member e _ | .unary _ e | .update _ _ e => exact ⟨trivial, e.all_spelling h⟩
  | .index a b | .binary _ a b | .logical _ a b | .assign _ a b =>
    have h := forall_mem_append.1 h
    exact ⟨trivial, a.all_spelling h.1, b.all_spelling h.2⟩
  | .call callee args =>
    have h := forall_mem_append.1 h
    exact ⟨trivial, callee.all_spelling h.1, Expr.listAll_spelling args h.2⟩
  | .conditional test consequent alternate =>
    obtain ⟨h, hb⟩ := forall_mem_append.1 h
    have h := forall_mem_append.1 h
    exact ⟨trivial, test.all_spelling h.1, consequent.all_spelling h.2, alternate.all_spelling hb⟩
  | .array items => exact ⟨trivial, Expr.listAll_spelling items h⟩
  | .object props => exact ⟨trivial, Expr.propAll_spelling props h⟩
  | .func f => exact f.all_spelling h
  | .number _ | .str _ | .bool _ | .null | .undefined | .this => exact trivial

theorem Expr.listAll_spelling (es : List Expr) (h : ∀ x ∈ Expr.listNames es, P x) :
    Expr.ListAll (.spelling P) es := by
  match es with
  | [] => trivial
  | e :: rest =>
    have h := forall_mem_append.1 h
    exact ⟨e.all_spelling h.1, Expr.listAll_spelling rest h.2⟩

theorem Expr.propAll_spelling (props : List (String × Expr)) (h : ∀ x ∈ Expr.propNames props, P x) :
    Expr.PropAll (.spelling P) props := by
  match props with
  | [] => trivial
  | (_, e) :: rest =>
    have h := forall_mem_append.1 h
    exact ⟨e.all_spelling h.1, Expr.propAll_spelling rest h.2⟩

theorem Expr.optAll_spelling (e? : Option Expr) (h : ∀ x ∈ Expr.optNames e?, P x) :
    Expr.OptAll (.spelling P) e? := by
  match e? with
  | none => trivial
  | some e => exact e.all_spelling h

theorem Func.all_spelling (f : Func) (h : ∀ x ∈ f.names, P x) :
    (∀ id ∈ f.name, P id.name) ∧ f.All (.spelling P) := by
  match f with
  | ⟨_, _, .block stmts, _, _⟩ =>
    have h := forall_mem_append.1 h
    exact Func.head_spelling (Stmt.listAll_spelling stmts h.2) h.1
  | ⟨_, _, .expr e, _, _⟩ =>
    have h := forall_mem_append.1 h
    exact Func.head_spelling (e.all_spelling h.2) h.1

theorem Stmt.all_spelling (t : Stmt) (h : ∀ x ∈ t.names, P x) : t.All (.spelling P) := by
  match t with
  | .decl ⟨_, ds⟩ => exact ⟨trivial, Declarator.listAll_spelling ds h⟩
  | .expr e => exact e.all_spelling h
  | .branch test consequent none =>
    obtain ⟨htest, hconsequent⟩ := forall_mem_append.1 (forall_mem_append.1 h).1
    exact ⟨test.all_spelling htest, consequent.all_spelling hconsequent, trivial⟩
  | .branch test consequent (some alternate) =>
    obtain ⟨h, halternate⟩ := forall_mem_append.1 h
    obtain ⟨htest, hconsequent⟩ := forall_mem_append.1 h
    exact ⟨test.all_spelling htest, consequent.all_spelling hconsequent,
      alternate.all_spelling halternate⟩
  | .forLoop init test update body =>
    have hparts : ∀ l : List String,
        (∀ x ∈ l ++ Expr.optNames test ++ Expr.optNames update ++ body.names, P x) →
          (∀ x ∈ l, P x) ∧ Expr.OptAll (.spelling P) test ∧ Expr.OptAll (.spelling P) update ∧
            body.All (.spelling P) := by
      intro l h
      obtain ⟨h, hbody⟩ := forall_mem_append.1 h
      obtain ⟨h, hupdate⟩ := forall_mem_append.1 h
      obtain ⟨hl, htest⟩ := forall_mem_append.1 h
      exact ⟨hl, Expr.optAll_spelling test htest, Expr.optAll_spelling update hupdate,
        body.all_spelling hbody⟩
    match init with
    | none => exact ⟨trivial, (hparts [] h).2⟩
    | some (.decl ⟨_, ds⟩) =>
      obtain ⟨hds, hrest⟩ := hparts _ h
      exact ⟨⟨trivial, Declarator.listAll_spelling ds hds⟩, hrest⟩
    | some (.expr e) =>
      obtain ⟨he, hrest⟩ := hparts _ h
      exact ⟨e.all_spelling he, hrest⟩
  | .whileLoop test body =>
    have h := forall_mem_append.1 h
    exact ⟨test.all_spelling h.1, body.all_spelling h.2⟩
  | .block stmts => exact Stmt.listAll_spelling stmts h
  | .ret arg => exact Expr.optAll_spelling arg h
  | .func f => exact ⟨trivial, f.all_spelling h⟩
  | .breakLoop | .continueLoop | .empty => trivial

theorem Stmt.listAll_spelling (stmts : List Stmt) (h : ∀ x ∈ Stmt.listNames stmts, P x) :
    Stmt.ListAll (.spelling P) stmts := by
  match stmts with
  | [] => trivial
  | t :: rest =>
    have h := forall_mem_append.1 h
    exact ⟨t.all_spelling h.1, Stmt.listAll_spelling rest h.2⟩

theorem Declarator.listAll_spelling (ds : List Declarator)
    (h : ∀ x ∈ Declarator.listNames ds, P x) : Declarator.ListAll (.spelling P) ds := by
  match ds with
  | [] => trivial
  | ⟨_, init, _⟩ :: rest =>
    obtain ⟨h, hrest⟩ := forall_mem_append.1 h
    obtain ⟨htarget, hinit⟩ := forall_mem_append.1 h
    exact ⟨fun id hid => htarget _ (mem_map_of_mem hid), Expr.optAll_spelling init hinit,
      Declarator.listAll_spelling rest hrest⟩

end

/-! ## Drawing -/

/-- What the pass draws from some scopes on, the newest first: a draw hands out the name
that the pass gets there, and between the draws nothing bears on the temporaries. -/
inductive Draws (s : Scopes) : List String → Progress → Prop where
  | none : Draws s [] { scopes := s }
  | same {drawn : List String} {p q : Progress} :
      ledger q = ledger p → Draws s drawn p → Draws s drawn q
  | draw {drawn : List String} {p q : Progress} {t : String} :
      Draws s drawn p → (do noteExpanded; temp : Pass String) p = (t, q) → Draws s (t :: drawn) q

/-- What is known of the temporaries while a script is brought into normal form from some
scopes on. -/
structure Fresh (s : Scopes) (p : Progress) : Prop where
  reserved : p.scopes.reserved = s.reserved
  /-- The temporaries are the names that were handed out. -/
  drawn : Draws s p.scopes.temps p
  below : ∀ t ∈ p.scopes.temps, ∃ i < p.scopes.nextTemp, t = tempName i
  free : ∀ t ∈ p.scopes.temps, t ∉ s.reserved
  nodup : p.scopes.temps.Nodup
  count : p.scopes.temps.length = p.expanded
  /-- The numbers tried so far are those of reserved names and of temporaries. -/
  tried : ∀ i < p.scopes.nextTemp, tempName i ∈ s.reserved ++ p.scopes.temps

/-- Drawing a temporary hands out a name that is neither reserved nor a temporary yet. -/
theorem Fresh.draw {s : Scopes} {p : Progress} (hp : Fresh s p) :
    Fresh s ((do noteExpanded; temp : Pass String) p).2 := by
  obtain ⟨⟨hfrom, -⟩, hfree, htaken⟩ := freeTemp_spec p.scopes.reserved p.scopes.nextTemp
  have hdraw : (do noteExpanded; temp : Pass String) p =
      let i := freeTemp p.scopes.reserved p.scopes.nextTemp
      let scopes := { p.scopes with nextTemp := i + 1, temps := p.scopes.temps.insert (tempName i) }
      (tempName i, { p with scopes, expanded := p.expanded + 1 }) := rfl
  generalize freeTemp p.scopes.reserved p.scopes.nextTemp = i at *
  rw [hp.reserved] at hfree htaken
  -- a temporary drawn before has a smaller number
  have hnew : tempName i ∉ p.scopes.temps := by
    intro hmem
    obtain ⟨j, hj, h⟩ := hp.below _ hmem
    have hij := tempName_injective h
    omega
  simp only [insert_of_not_mem hnew] at hdraw
  have hdrawn := hp.drawn.draw hdraw
  rw [hdraw]
  refine ⟨hp.reserved, hdrawn, ?_, ?_, nodup_cons.2 ⟨hnew, hp.nodup⟩, ?_, fun j hj => ?_⟩
  · refine forall_mem_cons.2 ⟨⟨i, Nat.lt_succ_self i, rfl⟩, fun t ht => ?_⟩
    obtain ⟨j, hj, rfl⟩ := hp.below t ht
    exact ⟨j, Nat.lt_succ_of_lt (Nat.lt_of_lt_of_le hj hfrom), rfl⟩
  · exact forall_mem_cons.2 ⟨hfree, hp.free⟩
  · exact congrArg (· + 1) hp.count
  · rcases Nat.lt_or_ge j p.scopes.nextTemp with hlt | hge
    · exact (mem_append.1 (hp.tried j hlt)).elim (mem_append_left _)
        fun h => mem_append_right _ (mem_cons_of_mem _ h)
    · rcases Nat.lt_succ_iff_lt_or_eq.1 hj with hji | rfl
      · exact mem_append_left _ (htaken j hge hji)
      · exact mem_append_right _ mem_cons_self

end BarScript

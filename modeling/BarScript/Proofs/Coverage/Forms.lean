import BarScript.Proofs.Bare
import BarScript.Proofs.Coverage.Basic
import BarScript.Proofs.Passes.Compiled

/-!
# Cover and the forms of a script

Positions and the braces around single statements say nothing about names: a script uses
the same names out of cover without them. Nor do equality operators, as long as the name of
the context is in cover where the calls stand that take their place.
-/

namespace BarScript

open Stmt Declarator

variable {free : String → Bool}

/-! ## Positions and braces -/

theorem Pattern.names_bare (p : Pattern) : p.bare.names = p.names := by
  unfold Pattern.names
  rw [Pattern.boundNames_bare, List.map_map]
  rfl

theorem Declarator.introduced_listBare (ds : List Declarator) :
    introduced (listBare ds) = introduced ds := by
  induction ds with
  | nil => rfl
  | cons d rest ih =>
    obtain ⟨target, init, pos⟩ := d
    exact congrArg₂ (· ++ ·) target.names_bare ih

theorem Stmt.introduced_bare (s : Stmt) : s.bare.introduced = s.introduced := by
  cases s with
  | decl d =>
    obtain ⟨kind, ds⟩ := d
    exact introduced_listBare ds
  | _ => rfl

theorem ForInit.introduced_optBare (init : Option ForInit) :
    ForInit.introduced (ForInit.optBare init) = ForInit.introduced init := by
  match init with
  | some (.decl ⟨_, ds⟩) => exact introduced_listBare ds
  | some (.expr _) | none => rfl

theorem Stmt.hoisted_listBare (stmts : List Stmt) :
    Stmt.hoisted (Stmt.listBare stmts) = Stmt.hoisted stmts := by
  induction stmts with
  | nil => rfl
  | cons s rest ih =>
    cases s with
    | func f =>
      obtain ⟨name, params, body, style, pos⟩ := f
      cases name with
      | none => rfl
      | some id => exact congrArg (id.name :: ·) ih
    | decl d =>
      obtain ⟨kind, ds⟩ := d
      exact ih
    | _ => exact ih

theorem Expr.assignedUncovered_bare (ρ : List String) (e : Expr) :
    e.bare.assignedUncovered ρ = e.assignedUncovered ρ := by
  cases e <;> rfl

theorem Stmt.uncovered_braced (ρ₀ ρ : List String) (s : Stmt) :
    s.braced.uncovered free ρ₀ ρ = s.uncovered free (Stmt.hoisted [s] ∪ ρ) ρ := by
  cases s with
  | block stmts => rfl
  | func f => exact List.append_nil _
  | _ => exact List.append_nil _

/-- The body of a branch or of a loop, which gets braces. -/
theorem Stmt.uncovered_bareBody {s : Stmt}
    (h : s.bare.uncovered free (Stmt.hoisted [s] ∪ ρ) ρ =
      s.uncovered free (Stmt.hoisted [s] ∪ ρ) ρ) :
    s.bare.braced.uncovered free (Stmt.hoisted [s.bare.braced] ∪ ρ) ρ =
      s.uncovered free (Stmt.hoisted [s] ∪ ρ) ρ := by
  have hhoisted : Stmt.hoisted [s.bare] = Stmt.hoisted [s] := hoisted_listBare [s]
  rw [uncovered_braced, hhoisted]
  exact h

mutual

/-- An expression uses the same names out of cover without positions. -/
theorem Expr.uncovered_bare (ρ : List String) (e : Expr) :
    e.bare.uncovered free ρ = e.uncovered free ρ := by
  match e with
  | .member base _ => exact base.uncovered_bare ρ
  | .index base sub => exact congrArg₂ (· ++ ·) (base.uncovered_bare ρ) (sub.uncovered_bare ρ)
  | .call callee args =>
    exact congrArg₂ (· ++ ·) (callee.uncovered_bare ρ) (Expr.listUncovered_bare ρ args)
  | .unary _ arg => exact arg.uncovered_bare ρ
  | .update _ _ target =>
    exact congrArg₂ (· ++ ·) (target.assignedUncovered_bare ρ) (target.uncovered_bare ρ)
  | .binary _ left right | .logical _ left right =>
    exact congrArg₂ (· ++ ·) (left.uncovered_bare ρ) (right.uncovered_bare ρ)
  | .conditional test consequent alternate =>
    exact congrArg₂ (· ++ ·) (test.uncovered_bare ρ)
      (congrArg₂ (· ++ ·) (consequent.uncovered_bare ρ) (alternate.uncovered_bare ρ))
  | .assign _ target value =>
    exact congrArg₂ (· ++ ·) (target.assignedUncovered_bare ρ)
      (congrArg₂ (· ++ ·) (target.uncovered_bare ρ) (value.uncovered_bare ρ))
  | .array items => exact Expr.listUncovered_bare ρ items
  | .object props => exact Expr.propUncovered_bare ρ props
  | .func f => exact f.uncovered_bare ρ
  | .number _ | .str _ | .bool _ | .null | .undefined | .ident _ | .this => rfl

theorem Expr.listUncovered_bare (ρ : List String) (es : List Expr) :
    Expr.listUncovered free ρ (Expr.listBare es) = Expr.listUncovered free ρ es := by
  match es with
  | [] => rfl
  | e :: rest => exact congrArg₂ (· ++ ·) (e.uncovered_bare ρ) (Expr.listUncovered_bare ρ rest)

theorem Expr.propUncovered_bare (ρ : List String) (props : List (String × Expr)) :
    Expr.propUncovered free ρ (Expr.propBare props) = Expr.propUncovered free ρ props := by
  match props with
  | [] => rfl
  | (_, e) :: rest =>
    exact congrArg₂ (· ++ ·) (e.uncovered_bare ρ) (Expr.propUncovered_bare ρ rest)

theorem Expr.optUncovered_bare (ρ : List String) (e? : Option Expr) :
    Expr.optUncovered free ρ (Expr.optBare e?) = Expr.optUncovered free ρ e? := by
  match e? with
  | none => rfl
  | some e => exact e.uncovered_bare ρ

theorem Func.uncovered_bare (ρ : List String) (f : Func) :
    f.bare.uncovered free ρ = f.uncovered free ρ := by
  match f with
  | ⟨_, params, body, _, _⟩ =>
    have hparams : (params.map Ident.bare).map Ident.name = params.map Ident.name := List.map_map
    show body.bare.uncovered free ((params.map Ident.bare).map Ident.name ∪ ρ) = _
    rw [hparams]
    exact body.uncovered_bare _

theorem FuncBody.uncovered_bare (ρ : List String) (b : FuncBody) :
    b.bare.uncovered free ρ = b.uncovered free ρ := by
  match b with
  | .block stmts =>
    show Stmt.listUncovered free _ _ (Stmt.listBare stmts) = _
    rw [hoisted_listBare]
    exact Stmt.listUncovered_bare _ _ stmts
  | .expr e => exact e.uncovered_bare ρ

theorem Stmt.uncovered_bare (ρ₀ ρ : List String) (s : Stmt) :
    s.bare.uncovered free ρ₀ ρ = s.uncovered free ρ₀ ρ := by
  match s with
  | .decl ⟨_, ds⟩ => exact Declarator.listUncovered_bare ρ ds
  | .expr e => exact e.uncovered_bare ρ
  | .branch test consequent alternate =>
    exact congrArg₂ (· ++ ·) (test.uncovered_bare ρ) (congrArg₂ (· ++ ·)
      (uncovered_bareBody (consequent.uncovered_bare _ ρ)) (Stmt.optUncovered_bare ρ alternate))
  | .forLoop init test update body =>
    show ForInit.uncovered free ρ (ForInit.optBare init) ++ _ = _
    rw [ForInit.introduced_optBare]
    exact congrArg₂ (· ++ ·) (ForInit.uncovered_bare ρ init) (congrArg₂ (· ++ ·)
      (Expr.optUncovered_bare _ test) (congrArg₂ (· ++ ·) (Expr.optUncovered_bare _ update)
        (uncovered_bareBody (body.uncovered_bare _ _))))
  | .whileLoop test body =>
    exact congrArg₂ (· ++ ·) (test.uncovered_bare ρ) (uncovered_bareBody (body.uncovered_bare _ ρ))
  | .block stmts =>
    show Stmt.listUncovered free _ _ (Stmt.listBare stmts) = _
    rw [hoisted_listBare]
    exact Stmt.listUncovered_bare _ _ stmts
  | .ret arg => exact Expr.optUncovered_bare ρ arg
  | .func f => exact f.uncovered_bare ρ₀
  | .breakLoop | .continueLoop | .empty => rfl

theorem Stmt.listUncovered_bare (ρ₀ ρ : List String) (stmts : List Stmt) :
    Stmt.listUncovered free ρ₀ ρ (Stmt.listBare stmts) = Stmt.listUncovered free ρ₀ ρ stmts := by
  match stmts with
  | [] => rfl
  | s :: rest =>
    show _ ++ Stmt.listUncovered free ρ₀ (s.bare.introduced ∪ ρ) (Stmt.listBare rest) = _
    rw [introduced_bare]
    exact congrArg₂ (· ++ ·) (s.uncovered_bare ρ₀ ρ) (Stmt.listUncovered_bare ρ₀ _ rest)

theorem Stmt.optUncovered_bare (ρ : List String) (s? : Option Stmt) :
    Stmt.optUncovered free ρ (Stmt.optBare s?) = Stmt.optUncovered free ρ s? := by
  match s? with
  | none => rfl
  | some s => exact uncovered_bareBody (s.uncovered_bare _ ρ)

theorem ForInit.uncovered_bare (ρ : List String) (init : Option ForInit) :
    ForInit.uncovered free ρ (ForInit.optBare init) = ForInit.uncovered free ρ init := by
  match init with
  | none => rfl
  | some (.decl ⟨_, ds⟩) => exact Declarator.listUncovered_bare ρ ds
  | some (.expr e) => exact e.uncovered_bare ρ

theorem Declarator.listUncovered_bare (ρ : List String) (ds : List Declarator) :
    listUncovered free ρ (listBare ds) = listUncovered free ρ ds := by
  match ds with
  | [] => rfl
  | ⟨target, init, _⟩ :: rest =>
    show _ ++ listUncovered free (target.bare.names ∪ ρ) (listBare rest) = _
    rw [Pattern.names_bare]
    exact congrArg₂ (· ++ ·) (Expr.optUncovered_bare ρ init) (Declarator.listUncovered_bare _ rest)

end

section Tolerant

variable {root : String} {ρ : List String}

theorem Expr.uncovered_named (h : root ∈ ρ) : (Expr.named root).uncovered free ρ = [] :=
  if_pos (.inl h)

theorem Equality.uncovered_call (h : root ∈ ρ) (left right : Expr) :
    (Equality.call root left right).uncovered free ρ =
      left.uncovered free ρ ++ right.uncovered free ρ := by
  show (Expr.named root).uncovered free ρ ++
    (left.uncovered free ρ ++ (right.uncovered free ρ ++ [])) = _
  rw [Expr.uncovered_named h, List.nil_append, List.append_nil]

theorem Expr.assignedUncovered_tolerant (root : String) (ρ : List String) (e : Expr) :
    (e.tolerant root).assignedUncovered ρ = e.assignedUncovered ρ := by
  cases e with
  | binary op left right =>
    unfold Expr.tolerant
    split <;> rfl
  | _ => rfl

theorem Declarator.introduced_listTolerant (root : String) (ds : List Declarator) :
    introduced (listTolerant root ds) = introduced ds := by
  rw [listTolerant_eq_map]
  exact List.flatMap_map ..

theorem Stmt.introduced_tolerant (root : String) (s : Stmt) :
    (s.tolerant root).introduced = s.introduced := by
  match s with
  | .decl ⟨_, ds⟩ => exact introduced_listTolerant root ds
  | .branch _ _ none | .branch _ _ (some _) | .forLoop none _ _ _
  | .forLoop (some (.decl ⟨_, _⟩)) _ _ _ | .forLoop (some (.expr _)) _ _ _ | .expr _
  | .whileLoop _ _ | .block _ | .ret _ | .func _ | .breakLoop | .continueLoop | .empty => rfl

theorem Stmt.hoisted_listTolerant (root : String) (stmts : List Stmt) :
    Stmt.hoisted (Stmt.listTolerant root stmts) = Stmt.hoisted stmts := by
  induction stmts with
  | nil => rfl
  | cons s rest ih =>
    match s with
    | .func ⟨none, _, .block _, _, _⟩ | .func ⟨none, _, .expr _, _, _⟩ => rfl
    | .func ⟨some id, _, .block _, _, _⟩ | .func ⟨some id, _, .expr _, _, _⟩ =>
      exact congrArg (id.name :: ·) ih
    | .branch _ _ none | .branch _ _ (some _) | .forLoop none _ _ _
    | .forLoop (some (.decl ⟨_, _⟩)) _ _ _ | .forLoop (some (.expr _)) _ _ _
    | .decl ⟨_, _⟩ | .expr _
    | .whileLoop _ _ | .block _ | .ret _ | .breakLoop | .continueLoop | .empty => exact ih

theorem mem_cover (h : root ∈ ρ) (names : List String) : root ∈ names ∪ ρ :=
  List.mem_union_iff.2 (.inr h)

theorem Stmt.uncovered_tolerantBody {s : Stmt} (h : (s.tolerant root).uncovered free
    (Stmt.hoisted [s] ∪ ρ) ρ = s.uncovered free (Stmt.hoisted [s] ∪ ρ) ρ) :
    (s.tolerant root).uncovered free (Stmt.hoisted [s.tolerant root] ∪ ρ) ρ =
      s.uncovered free (Stmt.hoisted [s] ∪ ρ) ρ := by
  have hhoisted : Stmt.hoisted [s.tolerant root] = Stmt.hoisted [s] :=
    hoisted_listTolerant root [s]
  rw [hhoisted]
  exact h

mutual

/-- An expression uses the same names out of cover without equality operators. -/
theorem Expr.uncovered_tolerant {ρ : List String} (h : root ∈ ρ) (e : Expr) :
    (e.tolerant root).uncovered free ρ = e.uncovered free ρ := by
  match e with
  | .binary op left right =>
    have hboth := congrArg₂ (· ++ ·) (left.uncovered_tolerant h) (right.uncovered_tolerant h)
    unfold Expr.tolerant
    split
    · exact (Equality.uncovered_call h _ _).trans hboth
    · exact hboth
  | .member base _ | .unary _ base => exact base.uncovered_tolerant h
  | .func f => exact f.uncovered_tolerant h
  | .index base sub | .logical _ base sub =>
    exact congrArg₂ (· ++ ·) (base.uncovered_tolerant h) (sub.uncovered_tolerant h)
  | .call callee args =>
    exact congrArg₂ (· ++ ·) (callee.uncovered_tolerant h) (Expr.listUncovered_tolerant h args)
  | .update _ _ target =>
    exact congrArg₂ (· ++ ·) (target.assignedUncovered_tolerant root ρ)
      (target.uncovered_tolerant h)
  | .conditional test consequent alternate =>
    exact congrArg₂ (· ++ ·) (test.uncovered_tolerant h)
      (congrArg₂ (· ++ ·) (consequent.uncovered_tolerant h) (alternate.uncovered_tolerant h))
  | .assign _ target value =>
    exact congrArg₂ (· ++ ·) (target.assignedUncovered_tolerant root ρ)
      (congrArg₂ (· ++ ·) (target.uncovered_tolerant h) (value.uncovered_tolerant h))
  | .array items => exact Expr.listUncovered_tolerant h items
  | .object props => exact Expr.propUncovered_tolerant h props
  | .number _ | .str _ | .bool _ | .null | .undefined | .ident _ | .this => rfl

theorem Expr.listUncovered_tolerant {ρ : List String} (h : root ∈ ρ) (es : List Expr) :
    Expr.listUncovered free ρ (Expr.listTolerant root es) = Expr.listUncovered free ρ es := by
  match es with
  | [] => rfl
  | e :: rest =>
    exact congrArg₂ (· ++ ·) (e.uncovered_tolerant h) (Expr.listUncovered_tolerant h rest)

theorem Expr.propUncovered_tolerant {ρ : List String} (h : root ∈ ρ)
    (props : List (String × Expr)) :
    Expr.propUncovered free ρ (Expr.propTolerant root props) = Expr.propUncovered free ρ props := by
  match props with
  | [] => rfl
  | (_, e) :: rest =>
    exact congrArg₂ (· ++ ·) (e.uncovered_tolerant h) (Expr.propUncovered_tolerant h rest)

theorem Expr.optUncovered_tolerant {ρ : List String} (h : root ∈ ρ) (e? : Option Expr) :
    Expr.optUncovered free ρ (Expr.optTolerant root e?) = Expr.optUncovered free ρ e? := by
  match e? with
  | none => rfl
  | some e => exact e.uncovered_tolerant h

theorem Func.uncovered_tolerant {ρ : List String} (h : root ∈ ρ) (f : Func) :
    (f.tolerant root).uncovered free ρ = f.uncovered free ρ := by
  match f with
  | ⟨_, params, .block stmts, _, _⟩ =>
    show Stmt.listUncovered free _ _ (Stmt.listTolerant root stmts) = _
    rw [hoisted_listTolerant]
    have h' := mem_cover (mem_cover h (params.map Ident.name)) (Stmt.hoisted stmts)
    exact Stmt.listUncovered_tolerant h' h' stmts
  | ⟨_, _, .expr e, _, _⟩ => exact e.uncovered_tolerant (mem_cover h _)

theorem Stmt.uncovered_tolerant {ρ₀ ρ : List String} (h₀ : root ∈ ρ₀) (h : root ∈ ρ) (s : Stmt) :
    (s.tolerant root).uncovered free ρ₀ ρ = s.uncovered free ρ₀ ρ := by
  match s with
  | .decl ⟨_, ds⟩ => exact Declarator.listUncovered_tolerant h ds
  | .expr e => exact e.uncovered_tolerant h
  | .branch test consequent none =>
    exact congrArg₂ (· ++ ·) (test.uncovered_tolerant h)
      (congrArg (· ++ [])
        (uncovered_tolerantBody (consequent.uncovered_tolerant (mem_cover h _) h)))
  | .branch test consequent (some alternate) =>
    exact congrArg₂ (· ++ ·) (test.uncovered_tolerant h)
      (congrArg₂ (· ++ ·) (uncovered_tolerantBody (consequent.uncovered_tolerant (mem_cover h _) h))
        (uncovered_tolerantBody (alternate.uncovered_tolerant (mem_cover h _) h)))
  | .forLoop none test update body =>
    exact congrArg₂ (· ++ ·) rfl (congrArg₂ (· ++ ·) (Expr.optUncovered_tolerant h test)
      (congrArg₂ (· ++ ·) (Expr.optUncovered_tolerant h update)
        (uncovered_tolerantBody (body.uncovered_tolerant (mem_cover h _) h))))
  | .forLoop (some (.expr e)) test update body =>
    exact congrArg₂ (· ++ ·) (e.uncovered_tolerant h) (congrArg₂ (· ++ ·)
      (Expr.optUncovered_tolerant h test)
      (congrArg₂ (· ++ ·) (Expr.optUncovered_tolerant h update)
        (uncovered_tolerantBody (body.uncovered_tolerant (mem_cover h _) h))))
  | .forLoop (some (.decl ⟨_, ds⟩)) test update body =>
    have h' := mem_cover h (introduced ds)
    show listUncovered free ρ (listTolerant root ds) ++
      (Expr.optUncovered free (introduced (listTolerant root ds) ∪ ρ) _ ++
        (Expr.optUncovered free (introduced (listTolerant root ds) ∪ ρ) _ ++
          (body.tolerant root).uncovered free (_ ∪ (Declarator.introduced _ ∪ ρ))
            (introduced (listTolerant root ds) ∪ ρ))) = _
    rw [introduced_listTolerant]
    exact congrArg₂ (· ++ ·) (Declarator.listUncovered_tolerant h ds) (congrArg₂ (· ++ ·)
      (Expr.optUncovered_tolerant h' test)
      (congrArg₂ (· ++ ·) (Expr.optUncovered_tolerant h' update)
        (uncovered_tolerantBody (body.uncovered_tolerant (mem_cover h' _) h'))))
  | .whileLoop test body =>
    exact congrArg₂ (· ++ ·) (test.uncovered_tolerant h)
      (uncovered_tolerantBody (body.uncovered_tolerant (mem_cover h _) h))
  | .block stmts =>
    show Stmt.listUncovered free _ _ (Stmt.listTolerant root stmts) = _
    rw [hoisted_listTolerant]
    exact Stmt.listUncovered_tolerant (mem_cover h _) (mem_cover h _) stmts
  | .ret arg => exact Expr.optUncovered_tolerant h arg
  | .func f => exact f.uncovered_tolerant h₀
  | .breakLoop | .continueLoop | .empty => rfl

theorem Stmt.listUncovered_tolerant {ρ₀ ρ : List String} (h₀ : root ∈ ρ₀) (h : root ∈ ρ)
    (stmts : List Stmt) :
    Stmt.listUncovered free ρ₀ ρ (Stmt.listTolerant root stmts) =
      Stmt.listUncovered free ρ₀ ρ stmts := by
  match stmts with
  | [] => rfl
  | s :: rest =>
    show _ ++ Stmt.listUncovered free ρ₀ ((s.tolerant root).introduced ∪ ρ)
      (Stmt.listTolerant root rest) = _
    rw [introduced_tolerant]
    exact congrArg₂ (· ++ ·) (s.uncovered_tolerant h₀ h)
      (Stmt.listUncovered_tolerant h₀ (mem_cover h _) rest)

theorem Declarator.listUncovered_tolerant {ρ : List String} (h : root ∈ ρ) (ds : List Declarator) :
    listUncovered free ρ (listTolerant root ds) =
      listUncovered free ρ ds := by
  match ds with
  | [] => rfl
  | ⟨_, init, _⟩ :: rest =>
    exact congrArg₂ (· ++ ·) (Expr.optUncovered_tolerant h init)
      (Declarator.listUncovered_tolerant (mem_cover h _) rest)

end

end Tolerant

/-- **A script without equality operators** uses the same names out of cover, if its first
parameter is the context. -/
theorem Program.uncovered_tolerant {p : Program} {root : String}
    (h : root ∈ p.root.params.map Ident.name) : (p.tolerant root).1.uncovered = p.uncovered := by
  obtain ⟨⟨name, params, body, style, pos⟩⟩ := p
  unfold Program.tolerant
  split
  · rfl
  · have hroot : root ∈ params.map Ident.name ∪ [] := List.mem_union_iff.2 (.inl h)
    cases body with
    | block stmts =>
      show Stmt.listUncovered _ _ _ (Stmt.listTolerant root stmts) = _
      rw [hoisted_listTolerant]
      exact Stmt.listUncovered_tolerant (mem_cover hroot _) (mem_cover hroot _) stmts
    | expr e => exact e.uncovered_tolerant hroot

end BarScript

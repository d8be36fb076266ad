import BarScript.Proofs.Coverage.Forms
import BarScript.Proofs.Coverage.Runs
import BarScript.Proofs.Locals.Statements
import BarScript.Proofs.Naming.Shaped
import BarScript.Proofs.RoundTrip.Grammatical

/-!
# Compiled scripts and names in cover

Slotting takes most names out of a script: what is declared becomes a slot of the context.
The names that stay are parameters and loop variables, which are always in cover; names read
off the context; functions; and those that stand for a value by themselves. Slotting knows
where a scope ends but not where a block does, and it knows the functions and the names read
off the context from the beginning of the script on. So names of these kinds can be out of
cover in a script that compiles, and no others.
-/

namespace BarScript

open Machine Naming Slotted List

namespace Coverage

variable {free : String → Bool} {A : String → Prop} {root : String} {ρ ρ' : List String}

/-! ## Covers of open scopes -/

section Scopes

variable {F : List Frame}

/-- A cover fits open scopes if it has the name of the context, and has what the scopes keep
as names, the names in `A` apart. -/
structure Fits (A : String → Prop) (root : String) (F : List Frame) (ρ : List String) : Prop where
  root : root ∈ ρ
  bound : ∀ f ∈ F, ∀ x ∈ f.bound, A x ∨ x ∈ ρ
  counted : ∀ f ∈ F, ∀ x ∈ f.loopVars, A x ∨ x ∈ ρ

theorem Fits.mono (h : Fits A root F ρ) (hρ : ρ ⊆ ρ') : Fits A root F ρ' where
  root := hρ h.root
  bound f hf x hx := (h.bound f hf x hx).imp_right (hρ ·)
  counted f hf x hx := (h.counted f hf x hx).imp_right (hρ ·)

theorem Fits.union (h : Fits A root F ρ) (names : List String) : Fits A root F (names ∪ ρ) :=
  h.mono fun _ hx => mem_cover hx names

theorem Fits.enter (h : Fits A root F ρ) (kind : ScopeKind) (n : Nat) :
    Fits A root (enterIn kind n F) ρ where
  root := h.root
  bound := forall_mem_cons.2 ⟨fun _ hx => (by cases hx), h.bound⟩
  counted := forall_mem_cons.2 ⟨fun _ hx => (by cases hx), h.counted⟩

theorem Fits.inner (h : Fits A root F ρ) {g : Frame → Frame}
    (hbound : ∀ f : Frame, ∀ x ∈ (g f).bound, x ∈ f.bound ∨ A x ∨ x ∈ ρ)
    (hcounted : ∀ f : Frame, ∀ x ∈ (g f).loopVars, x ∈ f.loopVars ∨ A x ∨ x ∈ ρ) :
    Fits A root (inner g F) ρ := by
  cases F with
  | nil => exact h
  | cons f F =>
    obtain ⟨hf, hF⟩ := forall_mem_cons.1 h.bound
    obtain ⟨hf', hF'⟩ := forall_mem_cons.1 h.counted
    exact ⟨h.root, forall_mem_cons.2 ⟨fun x hx => (hbound f x hx).elim (hf x) id, hF⟩,
      forall_mem_cons.2 ⟨fun x hx => (hcounted f x hx).elim (hf' x) id, hF'⟩⟩

theorem Fits.declare (h : Fits A root F ρ) (b : Binding) : Fits A root (declareIn F b) ρ :=
  h.inner (fun _ _ hx => .inl hx) fun _ _ hx => .inl hx

theorem Fits.hand (h : Fits A root F ρ)
    (hids : ∀ id ∈ ids, A id.name ∨ id.name ∈ ρ) : Fits A root (handTo F ids) ρ := by
  induction ids generalizing F with
  | nil => exact h
  | cons id rest ih =>
    obtain ⟨hid, hrest⟩ := forall_mem_cons.1 hids
    refine ih (h.inner (fun f x hx => ?_) fun _ _ hx => .inl hx) hrest
    rcases mem_insert_iff.1 hx with rfl | hx
    · exact .inr hid
    · exact .inl hx

theorem Fits.count (h : Fits A root F ρ)
    (hids : ∀ id ∈ ids, A id.name ∨ id.name ∈ ρ) : Fits A root (countIn F ids) ρ := by
  induction ids generalizing F with
  | nil => exact h
  | cons id rest ih =>
    obtain ⟨hid, hrest⟩ := forall_mem_cons.1 hids
    refine ih (h.inner (fun _ _ hx => .inl hx) fun f x hx => ?_) hrest
    rcases mem_insert_iff.1 hx with rfl | hx
    · exact .inr hid
    · exact .inl hx

theorem Fits.call (h : Fits A root F ρ) (n : Nat) (params : List Ident) :
    Fits A root (handTo (enterIn .function n F) params) (params.map Ident.name ∪ ρ) :=
  ((h.enter .function n).union _).hand fun _ hid =>
    .inr (mem_union_iff.2 (.inl (mem_map_of_mem hid)))

theorem Fits.header (h : Fits A root F ρ) (target : Pattern) :
    Fits A root (countIn F target.boundNames) (target.names ∪ ρ) :=
  (h.union _).count fun _ hid => .inr (mem_union_iff.2 (.inl (mem_map_of_mem hid)))

/-! ## Uses of names -/

/-- The reading of names and callees that leaves only names in `A` out of cover. -/
def covering (free : String → Bool) (A : String → Prop) (root : String) : Naming.Reading where
  use F _ _ e := ∀ ρ, Fits A root F ρ →
    (∀ x ∈ e.uncovered free ρ, A x) ∧ ∀ x ∈ e.assignedUncovered ρ, A x
  space F callee ns? :=
    ns?.isSome = true → ∀ ρ, Fits A root F ρ → ∀ x ∈ callee.uncovered free ρ, A x
  function _ id := A id.name

theorem uncovered_ident {id : Ident} (h : A id.name ∨ id.name ∈ ρ) :
    (∀ x ∈ (Expr.ident id).uncovered free ρ, A x) ∧ ∀ x ∈
    (Expr.ident id).assignedUncovered ρ, A x := by
  constructor
  · unfold Expr.uncovered
    split
    · exact fun _ hx => by cases hx
    · next hout => exact forall_mem_singleton.2 (h.resolve_right fun hx => hout (.inl hx))
  · show ∀ x ∈ (if id.name ∈ ρ then [] else [id.name]), A x
    split
    · exact fun _ hx => by cases hx
    · next hout => exact forall_mem_singleton.2 (h.resolve_right hout)

section Forms

variable {c : Setting}

theorem uncovered_slot (h : c.root ∈ ρ) (b : Binding) : (c.slot b).uncovered free ρ = [] :=
  Expr.uncovered_named h

theorem uncovered_contextCall (h : c.root ∈ ρ) (name : String) (args : List Expr) :
    (c.contextCall name args).uncovered free ρ = Expr.listUncovered free ρ args := by
  show (Expr.named c.root).uncovered free ρ ++ _ = _
  rw [Expr.uncovered_named h, List.nil_append]

theorem uncovered_precision (h : c.root ∈ ρ) (e : Expr) :
    (c.contextCall "precision" [e]).uncovered free ρ = e.uncovered free ρ :=
  (uncovered_contextCall h _ _).trans (List.append_nil _)

theorem uncovered_param (h : c.root ∈ ρ) (series offset : Expr) (k : String) :
    (c.param series offset k).uncovered free ρ =
      series.uncovered free ρ ++ offset.uncovered free ρ := by
  refine (uncovered_contextCall h _ _).trans (congrArg (series.uncovered free ρ ++ ·) ?_)
  exact List.append_nil _

theorem uncovered_declare (h : c.root ∈ ρ) (ρ₀ : List String) (b : Binding) (e : Expr) :
    (c.declare b e).uncovered free ρ₀ ρ = e.uncovered free ρ := by
  show [] ++
    ((c.slot b).uncovered free ρ ++ (c.contextCall "init" [c.slot b, e]).uncovered free ρ) = _
  rw [uncovered_contextCall h, uncovered_slot h]
  show (c.slot b).uncovered free ρ ++ (e.uncovered free ρ ++ []) = _
  rw [uncovered_slot h, List.append_nil]
  rfl

theorem uncovered_contextRead {init : Expr} (h : init.isContextRead root = true) (hρ : root ∈ ρ) :
    init.uncovered free ρ = [] := by
  have hname {id : Ident} (hid : (id.name == root) = true) :
      (Expr.ident id).uncovered free ρ = [] :=
    if_pos (.inl (beq_iff_eq.1 hid ▸ hρ))
  match init with
  | .ident _ | .member (.ident _) _ | .member (.member (.ident _) _) _ => exact hname h

theorem uncovered_atom (h : isAtom e = true) : e.uncovered free ρ = [] := by
  cases e with
  | number | str | bool | null | undefined | this => rfl
  | _ => cases h

theorem uncovered_step (h : isStep s = true) (ρ₀ : List String) : s.uncovered free ρ₀ ρ = [] := by
  match s with
  | .ret none | .breakLoop | .continueLoop | .empty => rfl

end Forms

section Lookups

variable {s : Scopes} {c : Setting}

/-- A name that is kept is known for one of the kinds of names that are kept. -/
theorem kept_cases (hroot : s.root? = some c.root) (hfunctions : ∀ x ∈ s.functions, A x)
    (hcontext : ∀ x ∈ s.contextNames, A x) (h : lookIn s F x = some r) (hslot : ∀ b, r ≠ .slot b)
    (hρ : Fits A c.root F ρ) :
    A x ∨ x ∈ ρ := by
  rcases lookIn_cases h with ⟨f, hf, hr⟩ | ⟨hx, -⟩ | ⟨hx, -⟩ | ⟨hx, -⟩
  · rcases resolve?_cases hr with ⟨hx, -⟩ | ⟨hx, -⟩ | ⟨b, hb⟩
    · exact hρ.counted f hf x hx
    · exact hρ.bound f hf x hx
    · exact absurd hb (hslot b)
  · cases hroot.symm.trans hx
    exact .inr hρ.root
  · exact .inl (hcontext x hx)
  · exact .inl (hfunctions x hx)

/-- **The scopes of a compilation leave few names out of cover**: functions, names read off
the context, numbers and the namespaces of the analysis. -/
theorem covering_faithful (hroot : s.root? = some c.root) (hfunctions : ∀ x ∈ s.functions, A x)
    (hcontext : ∀ x ∈ s.contextNames, A x) (hnumber : ∀ x, isNumberName x = true → A x)
    (hanalysis : ∀ x, c.options.isAnalysis x = true → A x) :
    Faithful s c (covering free A c.root) where
  current {F id b} _ ρ hρ := by
    refine ⟨fun x hx => ?_, fun _ hx => by cases hx⟩
    rw [show (c.current b).uncovered free ρ = (c.slot b).uncovered free ρ ++ [] from rfl,
      uncovered_slot hρ.root] at hx
    cases hx
  history {F id b} _ ρ hρ := by
    refine ⟨fun x hx => ?_, fun _ hx => by cases hx⟩
    rw [uncovered_slot hρ.root] at hx
    cases hx
  kept {F id} role h ρ hρ := by
    refine uncovered_ident ?_
    rcases h with hname | ⟨r, hr | ⟨-, hns, -⟩, hslot⟩
    · exact .inl (hnumber _ hname)
    · exact kept_cases hroot hfunctions hcontext hr hslot hρ
    · exact .inl (hanalysis _ hns)
  space F callee hns ρ hρ := by
    unfold namespaceOf at hns
    split at hns
    · next id property =>
      refine (uncovered_ident ?_).1
      split at hns
      · next hr => exact kept_cases hroot hfunctions hcontext hr nofun hρ
      · cases hns
      · split at hns
        · next hname => exact .inl (hanalysis _ hname)
        · cases hns
    · next id ns property =>
      split at hns
      · next hid => exact (uncovered_ident (.inr (beq_iff_eq.1 hid ▸ hρ.root))).1
      · cases hns
    · cases hns
  function {F id} h := by
    rcases lookIn_cases h with ⟨f, -, hr⟩ | ⟨-, hr⟩ | ⟨-, hr⟩ | ⟨hx, -⟩
    · rcases resolve?_cases hr with ⟨-, h⟩ | ⟨-, h⟩ | ⟨b, h⟩ <;> cases h
    · cases hr
    · cases hr
    · exact hfunctions _ hx

end Lookups

variable {ss ts : List Stmt} {ρ₀ : List String}

/-! ## Renderings -/

/-- Only names in `A` are read off the context by statements. -/
def Supplied (A : String → Prop) (root : String) (stmts : List Stmt) : Prop :=
  ∀ s ∈ stmts, ∀ x ∈ s.readNames root, A x

theorem Supplied.left (h : Supplied A root (ss ++ ts)) : Supplied A root ss :=
  (forall_mem_append.1 h).1

theorem Supplied.right (h : Supplied A root (ss ++ ts)) : Supplied A root ts :=
  (forall_mem_append.1 h).2

theorem Supplied.tail (h : Supplied A root (s :: ts)) : Supplied A root ts :=
  (forall_mem_cons.1 h).2

theorem listUncovered_append (hs : ∀ x ∈ Stmt.listUncovered free ρ₀ ρ ss, A x)
    (hF : Fits A root F ρ)
    (ht : ∀ ρ, Fits A root F ρ → ∀ x ∈ Stmt.listUncovered free ρ₀ ρ ts, A x) :
    ∀ x ∈ Stmt.listUncovered free ρ₀ ρ (ss ++ ts), A x := by
  induction ss generalizing ρ with
  | nil => exact ht ρ hF
  | cons s rest ih =>
    obtain ⟨hs, hrest⟩ := forall_mem_append.1 hs
    exact forall_mem_append.2 ⟨hs, ih hrest (hF.union _)⟩

theorem listUncovered_singleton {s : Stmt} (hs : ∀ x ∈ s.uncovered free ρ₀ ρ, A x) :
    ∀ x ∈ Stmt.listUncovered free ρ₀ ρ [s], A x :=
  forall_mem_append.2 ⟨hs, fun _ hx => by cases hx⟩

theorem expr_listUncovered_append (h : ∀ x ∈ Expr.listUncovered free ρ es, A x)
    (h' : ∀ x ∈ Expr.listUncovered free ρ es', A x) :
    ∀ x ∈ Expr.listUncovered free ρ (es ++ es'), A x := by
  induction es with
  | nil => exact h'
  | cons e rest ih =>
    obtain ⟨he, hrest⟩ := forall_mem_append.1 h
    exact forall_mem_append.2 ⟨he, ih hrest⟩

end Scopes

section Renderings

variable {c : Setting} (hc : c.options.unsupported = .strict)

include hc

set_option linter.unusedSectionVars false -- used through other members

mutual

/-- **Expressions**: what is rendered leaves only names in `A` out of a cover that fits. -/
theorem covered_expr (h : Renders c (covering free A c.root) F role e e' l) :
    Supplied A c.root e.statements → ∀ ρ, Fits A c.root F ρ → ∀ x ∈ e'.uncovered free ρ, A x := by
  match h with
  | .atom h =>
    intro _ ρ _ x hx
    rw [uncovered_atom h] at hx
    cases hx
  | .name h => exact fun _ ρ hρ => (h ρ hρ).1
  | .member h => exact fun he ρ hρ => covered_expr h he ρ hρ
  | .index hs hb =>
    exact fun he ρ hρ => forall_mem_append.2
      ⟨covered_expr hb he.left ρ hρ, covered_expr hs he.right ρ hρ⟩
  | .spaceCall hns ha hk =>
    intro he ρ hρ
    refine forall_mem_append.2 ⟨hns rfl ρ hρ, expr_listUncovered_append ?_ ?_⟩
    · exact covered_params ha he.right ρ hρ
    · cases hk with
      | primary _ => exact fun _ hx => by cases hx
      | other _ => exact fun _ hx => by cases hx
  | .call _ hcallee ha =>
    exact fun he ρ hρ => forall_mem_append.2
      ⟨covered_expr hcallee he.left ρ hρ, covered_list ha he.right ρ hρ⟩
  | .unary h => exact fun he ρ hρ => covered_expr h he ρ hρ
  | .update h =>
    intro he ρ hρ
    obtain ⟨hread, hassigned⟩ := covered_target h he ρ hρ
    exact forall_mem_append.2 ⟨hassigned, hread⟩
  | .binary hl hr | .logical hl hr =>
    exact fun he ρ hρ => forall_mem_append.2
      ⟨covered_expr hl he.left ρ hρ, covered_expr hr he.right ρ hρ⟩
  | .conditional ht hs ha =>
    exact fun he ρ hρ => forall_mem_append.2 ⟨covered_expr ht he.left ρ hρ, forall_mem_append.2
        ⟨covered_expr hs he.right.left ρ hρ, covered_expr ha he.right.right ρ hρ⟩⟩
  | .assign ht hv =>
    intro he ρ hρ
    obtain ⟨hread, hassigned⟩ := covered_target ht he.left ρ hρ
    exact forall_mem_append.2 ⟨hassigned,
      forall_mem_append.2 ⟨hread, covered_expr hv he.right ρ hρ⟩⟩
  | .array h => exact fun he ρ hρ => covered_list h he ρ hρ
  | .object h => exact fun he ρ hρ => covered_props h he ρ hρ
  | .func h => exact fun he ρ hρ => covered_func h he ρ hρ

theorem covered_target (h : RendersTarget c (covering free A c.root) F e e' l) :
    Supplied A c.root e.statements → ∀ ρ, Fits A c.root F ρ →
      (∀ x ∈ e'.uncovered free ρ, A x) ∧ ∀ x ∈ e'.assignedUncovered ρ, A x := by
  match h with
  | .name _ h => exact fun _ ρ hρ => h ρ hρ
  | .member h =>
    exact fun he ρ hρ => ⟨covered_expr h he ρ hρ, fun _ hx => by cases hx⟩
  | .index hs hb =>
    exact fun he ρ hρ => ⟨forall_mem_append.2
      ⟨covered_expr hb he.left ρ hρ, covered_expr hs he.right ρ hρ⟩, fun _ hx => by cases hx⟩
  | .raw h _ => cases hc.symm.trans h

theorem covered_list (h : RendersList c (covering free A c.root) F es es' l) :
    Supplied A c.root (Expr.listStatements es) → ∀ ρ, Fits A c.root F ρ →
      ∀ x ∈ Expr.listUncovered free ρ es', A x := by
  match h with
  | .nil => exact fun _ _ _ _ hx => by cases hx
  | .cons h hs =>
    exact fun he ρ hρ => forall_mem_append.2
      ⟨covered_expr h he.left ρ hρ, covered_list hs he.right ρ hρ⟩

theorem covered_props (h : RendersProps c (covering free A c.root) F ps ps' l) :
    Supplied A c.root (Expr.propStatements ps) → ∀ ρ, Fits A c.root F ρ →
      ∀ x ∈ Expr.propUncovered free ρ ps', A x := by
  match h with
  | .nil => exact fun _ _ _ _ hx => by cases hx
  | .cons h hs =>
    exact fun he ρ hρ => forall_mem_append.2
      ⟨covered_expr h he.left ρ hρ, covered_props hs he.right ρ hρ⟩

theorem covered_param (h : RendersParam c (covering free A c.root) F e e' l) :
    Supplied A c.root e.statements → ∀ ρ, Fits A c.root F ρ → ∀ x ∈ e'.uncovered free ρ, A x := by
  match h with
  | .func h => exact fun he ρ hρ => covered_func h he ρ hρ
  | .function h => exact fun _ ρ _ => (uncovered_ident (.inl h)).1
  | .series h =>
    intro _ ρ hρ
    rw [uncovered_param hρ.root]
    exact forall_mem_append.2 ⟨(h ρ hρ).1, fun _ hx => by cases hx⟩
  | .offset hs h =>
    intro he ρ hρ
    rw [uncovered_param hρ.root]
    exact forall_mem_append.2 ⟨(h ρ hρ).1, covered_expr hs he.right ρ hρ⟩
  | .value h =>
    intro he ρ hρ
    rw [uncovered_param hρ.root]
    exact forall_mem_append.2 ⟨covered_expr h he ρ hρ, fun _ hx => by cases hx⟩

theorem covered_params (h : RendersParams c (covering free A c.root) F es es' l) :
    Supplied A c.root (Expr.listStatements es) → ∀ ρ, Fits A c.root F ρ →
      ∀ x ∈ Expr.listUncovered free ρ es', A x := by
  match h with
  | .nil => exact fun _ _ _ _ hx => by cases hx
  | .cons h hs =>
    exact fun he ρ hρ => forall_mem_append.2
      ⟨covered_param h he.left ρ hρ, covered_params hs he.right ρ hρ⟩

theorem covered_opt (h : RendersOpt c (covering free A c.root) F e? e?' l) :
    Supplied A c.root (Expr.optStatements e?) → ∀ ρ, Fits A c.root F ρ →
      ∀ x ∈ Expr.optUncovered free ρ e?', A x := by
  match h with
  | .none => exact fun _ _ _ _ hx => by cases hx
  | .some h => exact fun he ρ hρ => covered_expr h he ρ hρ

theorem covered_func (h : RendersFunc c (covering free A c.root) F f f' l) :
    Supplied A c.root f.statements → ∀ ρ, Fits A c.root F ρ → ∀ x ∈ f'.uncovered free ρ, A x := by
  match h with
  | .block h =>
    intro hf ρ hρ
    exact (covered_stmts h hf).1 _ _ ((hρ.call _ _).union _) ((hρ.call _ _).union _)
  | .expr h =>
    intro hf ρ hρ
    show ∀ x ∈ (c.contextCall "precision" [_]).uncovered free (_ ∪ ρ), A x
    rw [uncovered_precision (mem_cover hρ.root _)]
    exact covered_expr h hf _ (hρ.call _ _)

/-- **Statements**: the same, and a cover that fits the open scopes fits those that are open
afterwards. -/
theorem covered_stmt (h : RendersStmt c (covering free A c.root) F inside s stmts F' l) :
    Supplied A c.root s.statements → (∀ ρ₀ ρ, Fits A c.root F ρ₀ → Fits A c.root F ρ →
        ∀ x ∈ Stmt.listUncovered free ρ₀ ρ stmts, A x) ∧ ∀ ρ, Fits A c.root F ρ →
          Fits A c.root F' ρ := by
  match h with
  | .decl h => exact fun hs => covered_decls h hs
  | .expr h =>
    exact fun hs => ⟨fun _ ρ _ hρ => listUncovered_singleton (covered_expr h hs.tail ρ hρ),
      fun _ => id⟩
  | .branch ht hs ha =>
    intro he
    refine ⟨fun ρ₀ ρ _ hρ => listUncovered_singleton ?_, fun _ => id⟩
    exact forall_mem_append.2 ⟨covered_expr ht he.tail.left ρ hρ, forall_mem_append.2
      ⟨(covered_stmt hs he.tail.right.left).1 _ _ ((hρ.enter _ _).union _) ((hρ.enter _ _).union _),
        covered_alternate ha he.tail.right.right ρ hρ⟩⟩
  | .forLoop _ hi ht hu hs =>
    intro he
    refine ⟨fun ρ₀ ρ _ hρ => listUncovered_singleton ?_, fun _ => id⟩
    obtain ⟨hinit, hheader⟩ := covered_header hi he.tail.left
    have hbody := hheader ρ (hρ.enter _ _)
    exact forall_mem_append.2 ⟨hinit ρ (hρ.enter _ _), forall_mem_append.2
      ⟨covered_opt ht he.tail.right.left _ hbody, forall_mem_append.2
        ⟨covered_opt hu he.tail.right.right.left _ hbody,
          (covered_stmt hs he.tail.right.right.right).1 _ _ (hbody.union _) (hbody.union _)⟩⟩⟩
  | .rawLoop h _ => cases hc.symm.trans h
  | .whileLoop ht hs =>
    intro he
    refine ⟨fun ρ₀ ρ _ hρ => listUncovered_singleton ?_, fun _ => id⟩
    exact forall_mem_append.2 ⟨covered_expr ht he.tail.left ρ (hρ.enter _ _),
      (covered_stmt hs he.tail.right).1 _ _ ((hρ.enter _ _).union _) ((hρ.enter _ _).union _)⟩
  | .block h =>
    intro he
    obtain ⟨hstmts, hF'⟩ := covered_stmts h he
    refine ⟨fun ρ₀ ρ hρ₀ hρ => ?_, hF'⟩
    split
    · exact hstmts ρ₀ ρ hρ₀ hρ
    · exact listUncovered_singleton (hstmts _ _ (hρ.union _) (hρ.union _))
  | .ret h =>
    intro he
    refine ⟨fun ρ₀ ρ _ hρ => listUncovered_singleton ?_, fun _ => id⟩
    have he := covered_expr h he.tail ρ hρ
    show ∀ x ∈ Expr.uncovered free ρ (if F.any _ then _ else _), A x
    split
    · rw [uncovered_precision hρ.root]
      exact he
    · exact he
  | .func h =>
    exact fun hs => ⟨fun ρ₀ _ hρ₀ _ => listUncovered_singleton (covered_func h hs.tail ρ₀ hρ₀),
      fun _ => id⟩
  | .step h =>
    refine fun _ => ⟨fun ρ₀ ρ _ _ => listUncovered_singleton ?_, fun _ => id⟩
    rw [uncovered_step h]
    exact fun _ hx => by cases hx

theorem covered_stmts (h : RendersStmts c (covering free A c.root) F ss ss' F' l) :
    Supplied A c.root (Stmt.listStatements ss) → (∀ ρ₀ ρ, Fits A c.root F ρ₀ → Fits A c.root F ρ →
        ∀ x ∈ Stmt.listUncovered free ρ₀ ρ ss', A x) ∧ ∀ ρ, Fits A c.root F ρ →
          Fits A c.root F' ρ := by
  match h with
  | .nil => exact fun _ => ⟨fun _ _ _ _ _ hx => (by cases hx), fun _ => id⟩
  | .cons h hs =>
    intro he
    obtain ⟨hstmt, hF₁⟩ := covered_stmt h he.left
    obtain ⟨hstmts, hF₂⟩ := covered_stmts hs he.right
    exact ⟨fun ρ₀ ρ hρ₀ hρ => listUncovered_append (hstmt ρ₀ ρ hρ₀ hρ) hρ fun ρ' hρ' =>
      hstmts ρ₀ ρ' (hF₁ ρ₀ hρ₀) (hF₁ ρ' hρ'), fun ρ hρ => hF₂ ρ (hF₁ ρ hρ)⟩

theorem covered_alternate (h : RendersAlternate c (covering free A c.root) F s? s?' l) :
    Supplied A c.root (Stmt.optStatements s?) → ∀ ρ, Fits A c.root F ρ →
      ∀ x ∈ Stmt.optUncovered free ρ s?', A x := by
  match h with
  | .none => exact fun _ _ _ _ hx => by cases hx
  | .some h =>
    intro hs ρ hρ
    exact (covered_stmt h hs).1 _ _ ((hρ.enter _ _).union _) ((hρ.enter _ _).union _)

/-- Declarators. What is read off the context has names in `A`, so what comes after needs no
larger cover. -/
theorem covered_decls (h : RendersDecls c (covering free A c.root) F kind ds stmts F' l) :
    Supplied A c.root (Declarator.listStatements kind ds) →
      (∀ ρ₀ ρ, Fits A c.root F ρ₀ → Fits A c.root F ρ →
        ∀ x ∈ Stmt.listUncovered free ρ₀ ρ stmts, A x) ∧ ∀ ρ, Fits A c.root F ρ →
          Fits A c.root F' ρ := by
  match h with
  | .nil => exact fun _ => ⟨fun _ _ _ _ _ hx => (by cases hx), fun _ => id⟩
  | .read hread hs =>
    intro hd
    have hhand {ρ : List String} (hρ : Fits A c.root F ρ) := hρ.hand fun id hid =>
      .inl (hd _ mem_cons_self _ (mem_readNames_single.2 ⟨hread, mem_map_of_mem hid⟩))
    obtain ⟨hstmts, hF'⟩ := covered_decls hs hd.tail.right
    refine ⟨fun ρ₀ ρ hρ₀ hρ => forall_mem_append.2 ⟨forall_mem_append.2 ⟨?_, ?_⟩, ?_⟩,
      fun ρ hρ => hF' ρ (hhand hρ)⟩
    · show ∀ x ∈ Expr.uncovered free ρ _, A x
      rw [uncovered_contextRead hread hρ.root]
      exact fun _ hx => by cases hx
    · exact fun _ hx => by cases hx
    · exact hstmts ρ₀ _ (hhand hρ₀) ((hhand hρ).union _)
  | .slot _ hi hs =>
    intro hd
    obtain ⟨hstmts, hF'⟩ := covered_decls hs hd.tail.right
    refine ⟨fun ρ₀ ρ hρ₀ hρ => forall_mem_append.2 ⟨?_, ?_⟩, fun ρ hρ => hF' ρ (hρ.declare _)⟩
    · rw [uncovered_declare hρ.root]
      exact covered_init hi hd.tail.left ρ hρ
    · exact hstmts ρ₀ _ (hρ₀.declare _) ((hρ.declare _).union _)
  | .raw h _ _ _ => cases hc.symm.trans h

theorem covered_init (h : RendersInit c (covering free A c.root) F e? e' l) : Supplied A c.root
    (Expr.optStatements e?) → ∀ ρ, Fits A c.root F ρ → ∀ x ∈ e'.uncovered free ρ, A x := by
  match h with
  | .none => exact fun _ _ _ _ hx => by cases hx
  | .some h => exact fun he ρ hρ => covered_expr h he ρ hρ
  | .element h =>
    exact fun _ ρ hρ => forall_mem_append.2 ⟨(h ρ hρ).1, fun _ hx => by cases hx⟩

theorem covered_header {init init' : Option ForInit}
    (h : RendersHeader c (covering free A c.root) F init init' F' l) :
    Supplied A c.root (ForInit.optStatements init) →
      (∀ ρ, Fits A c.root F ρ → ∀ x ∈ ForInit.uncovered free ρ init', A x) ∧
      ∀ ρ, Fits A c.root F ρ → Fits A c.root F' (ForInit.introduced init' ∪ ρ) := by
  match h with
  | .none => exact fun _ => ⟨fun _ _ _ hx => (by cases hx), fun _ => id⟩
  | .decl h => exact fun hi => covered_counters h hi
  | .expr h => exact fun hi => ⟨fun ρ hρ => covered_expr h hi ρ hρ, fun _ => id⟩

theorem covered_counters (h : RendersCounters c (covering free A c.root) F ds ds' F' l) :
    Supplied A c.root (Declarator.headerStatements ds) →
      (∀ ρ, Fits A c.root F ρ → ∀ x ∈ Declarator.listUncovered free ρ ds', A x) ∧
      ∀ ρ, Fits A c.root F ρ → Fits A c.root F' (Declarator.introduced ds' ∪ ρ) := by
  match h with
  | .nil => exact fun _ => ⟨fun _ _ _ hx => (by cases hx), fun _ => id⟩
  | .cons hi hs =>
    intro hd
    obtain ⟨hds, hF'⟩ := covered_counters hs hd.right
    refine ⟨fun ρ hρ => forall_mem_append.2 ⟨covered_opt hi hd.left ρ hρ, hds _ (hρ.header _)⟩,
      fun ρ hρ => (hF' _ (hρ.header _)).mono fun x hx => ?_⟩
    simp only [Declarator.introduced, flatMap_cons, mem_union_iff, mem_append] at hx ⊢
    rcases hx with hx | hx | hx
    · exact .inl (.inr hx)
    · exact .inl (.inl hx)
    · exact .inr hx

end

/-- **Slotted scripts** leave only names in `A` out of cover. -/
theorem covered_body (h : RendersBody c (covering free A c.root) F body body' l)
    (hbody : Supplied A c.root body.statements)
    (hρ : Fits A c.root F ρ) : ∀ x ∈ body'.uncovered free ρ, A x := by
  cases h with
  | block h => exact (covered_stmts hc h hbody).1 _ _ (hρ.union _) (hρ.union _)
  | expr h => exact covered_expr hc h hbody ρ hρ

end Renderings

variable {p slotted : Program} {options : Options} {progress : Progress} {x : String}

/-! ## From the source on -/

/-- **The slotted script** leaves only names in `A` out of cover, if `A` has the functions, the
names read off the context, the numbers and the namespaces of the analysis. -/
theorem covered_slotted (hstrict : options.unsupported = .strict)
    (h : (p.stages options).slotted = .ok (slotted, progress))
    (hfunctions : ∀ x ∈ (p.stages options).met.scopes.functions, A x)
    (hcontext : ∀ x ∈ (p.stages options).met.scopes.contextNames, A x)
    (hreads : Supplied A p.rootParam (p.stages options).normal.root.body.statements)
    (hnumber : ∀ x, isNumberName x = true → A x)
    (hanalysis : ∀ x, options.isAnalysis x = true → A x) (hρ : p.rootParam ∈ ρ) :
    ∀ x ∈ slotted.root.body.uncovered free ρ, A x := by
  have hroot : (p.stages options).met.scopes.root? = some p.rootParam :=
    congrArg (·.2.1) (normal_fixed p)
  obtain ⟨l, hbody, -⟩ := stages_render (covering_faithful hroot
    hfunctions hcontext hnumber hanalysis) h
  refine covered_body hstrict hbody hreads ⟨hρ, ?_, ?_⟩
  · exact forall_mem_singleton.2 fun _ hx => by cases hx
  · exact forall_mem_singleton.2 fun _ hx => by cases hx

end Coverage

end BarScript

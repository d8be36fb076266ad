import BarScript.Proofs.Bare
import BarScript.Proofs.Naming.Passes
import BarScript.Proofs.Passes.Compiled

/-!
# The shapes of slotted scripts

What slotting makes of an expression depends on the scopes that are open where it
stands, and on what is handed out for its calls and arguments. `Keeping` says what has to
be known of that if the slotted script is to have a shape; the induction over what slotting
makes then gives the shape at every depth, in the bodies of functions too. `Forms` is the
case in which only assignments and functions are looked into.
-/

namespace BarScript

open Slotted List

mutual

/-- The variables of the loop headers in an expression. -/
def Expr.counters : Expr → List String
  | .member base _ => base.counters
  | .index base sub => base.counters ++ sub.counters
  | .call callee args => callee.counters ++ Expr.listCounters args
  | .unary _ arg => arg.counters
  | .update _ _ target => target.counters
  | .binary _ left right => left.counters ++ right.counters
  | .logical _ left right => left.counters ++ right.counters
  | .conditional test consequent alternate =>
    test.counters ++ (consequent.counters ++ alternate.counters)
  | .assign _ target value => target.counters ++ value.counters
  | .array items => Expr.listCounters items
  | .object props => Expr.propCounters props
  | .func f => f.counters
  | .number _ | .str _ | .bool _ | .null | .undefined | .ident _ | .this => []

def Expr.listCounters : List Expr → List String
  | [] => []
  | e :: rest => e.counters ++ Expr.listCounters rest

def Expr.propCounters : List (String × Expr) → List String
  | [] => []
  | (_, e) :: rest => e.counters ++ Expr.propCounters rest

def Expr.optCounters : Option Expr → List String
  | none => []
  | some e => e.counters

def Func.counters : Func → List String
  | ⟨_, _, body, _, _⟩ => body.counters

def FuncBody.counters : FuncBody → List String
  | .block stmts => Stmt.listCounters stmts
  | .expr e => e.counters

def Stmt.counters : Stmt → List String
  | .decl ⟨_, ds⟩ => Declarator.listCounters ds
  | .expr e => e.counters
  | .branch test consequent alternate =>
    test.counters ++ (consequent.counters ++ Stmt.optCounters alternate)
  | .forLoop init test update body =>
    ForInit.counters init ++ (Expr.optCounters test ++ (Expr.optCounters update ++ body.counters))
  | .whileLoop test body => test.counters ++ body.counters
  | .block stmts => Stmt.listCounters stmts
  | .ret arg => Expr.optCounters arg
  | .func f => f.counters
  | .breakLoop | .continueLoop | .empty => []

def Stmt.listCounters : List Stmt → List String
  | [] => []
  | s :: rest => s.counters ++ Stmt.listCounters rest

def Stmt.optCounters : Option Stmt → List String
  | none => []
  | some s => s.counters

def ForInit.counters : Option ForInit → List String
  | none => []
  | some (.decl ⟨_, ds⟩) =>
    ds.flatMap (fun d => d.target.names) ++ Declarator.listCounters ds
  | some (.expr e) => e.counters

def Declarator.listCounters : List Declarator → List String
  | [] => []
  | ⟨_, init, _⟩ :: rest => Expr.optCounters init ++ Declarator.listCounters rest

end

namespace Naming

/-- Names, and fields of them at any depth. -/
def IsPath : Expr → Prop
  | .ident _ => True
  | .member base _ => IsPath base
  | _ => False

theorem isPath_of_isContextRead {root : String} {e : Expr} (h : e.isContextRead root = true) :
    IsPath e := by
  match e with
  | .ident _ | .member (.ident _) _ | .member (.member (.ident _) _) _ => trivial

/-- A callee that belongs to a namespace is a path. -/
theorem isPath_of_namespaceOf {c : Setting} {s : Scopes} {callee : Expr} {ns : String}
    (h : namespaceOf c s callee = some ns) : IsPath callee := by
  unfold namespaceOf at h
  split at h
  · trivial
  · trivial
  · cases h

theorem path_all {T : Shape} (hT : ∀ {e}, IsPath e → T.expr e) {e : Expr} (h : IsPath e) :
    e.All T := by
  match e with
  | .ident _ => exact hT h
  | .member base _ => exact ⟨hT h, path_all hT h⟩

/-! ## Open scopes -/

section Scopes

variable {P : Frame → Prop} {F : List Frame}

theorem forall_inner {g : Frame → Frame} (hg : ∀ f, P f → P (g f)) (hF : ∀ f ∈ F, P f) :
    ∀ f ∈ inner g F, P f := by
  cases F with
  | nil => exact hF
  | cons f F =>
    obtain ⟨hf, hF⟩ := forall_mem_cons.1 hF
    exact forall_mem_cons.2 ⟨hg f hf, hF⟩

theorem forall_foldl_inner {g : Ident → Frame → Frame} {ids : List Ident}
    (hg : ∀ id ∈ ids, ∀ f, P f → P (g id f)) (hF : ∀ f ∈ F, P f) :
    ∀ f ∈ ids.foldl (fun F id => inner (g id) F) F, P f := by
  induction ids generalizing F with
  | nil => exact hF
  | cons id ids ih =>
    obtain ⟨hid, hids⟩ := forall_mem_cons.1 hg
    exact ih hids (forall_inner hid hF)

end Scopes

/-! ## Shapes -/

/-- What is known where a script of the shape `S` is slotted, if the slotted script has the
shape `T`: something of each open scope, as long as no loop has a variable that is not in
`N`, and something of all that is handed out. -/
structure Keeping (s : Scopes) (c : Setting) (P : Frame → Prop) (N : String → Prop)
    (L : Log → Prop) (S T : Shape) : Prop where
  enter : ∀ kind n, P { kind, serial := n }
  hand : ∀ {f x}, S.name x → P f → P { f with bound := f.bound.insert x }
  count : ∀ {f x}, S.name x → N x → P f → P { f with loopVars := f.loopVars.insert x }
  declare : ∀ {f x} F b, S.name x → P f → P { f with vars := (x, slotIn (f :: F) x b) :: f.vars }
  parts : ∀ {l l'}, L (l ++ l') → L l ∧ L l'
  /-- What stays as it is has both shapes. -/
  kept : c.options.unsupported = .passThrough → S = T
  name : ∀ {x}, S.name x → T.name x
  named : ∀ {F f f' l}, S.named f → SlotsFunc s c F f f' l → T.named f'
  decls : S.Redeclares T
  expr : ∀ {F role e e' l}, (∀ f ∈ F, P f) → L l → e.All S → Slots s c F role e e' l → T.expr e'
  target : ∀ {F e e' l}, (∀ f ∈ F, P f) → L l → e.All S → SlotsTarget s c F e e' l → T.expr e'
  param : ∀ {F e e' l}, (∀ f ∈ F, P f) → L l → e.All S → SlotsParam s c F e e' l → T.expr e'
  use : ∀ {F role id e'}, (∀ f ∈ F, P f) → S.expr (.ident id) → Uses s c F role id e' → e'.All T
  path : ∀ {e}, IsPath e → e.All S → e.All T
  atom : ∀ {e}, isAtom e = true → S.expr e → T.expr e
  /-- The forms that slotting makes around an expression. -/
  field : ∀ {x}, x ∈ contextFields → (Expr.member c.context x).All T
  slot : ∀ {F x} b, S.name x → (c.slot (slotIn F x b)).All T
  undefined : T.expr .undefined
  key : ∀ k, T.expr (.str k)
  element : ∀ {e'} (i : Float), T.expr e' → T.expr (.index e' (.number i))
  precision : ∀ {e'}, T.expr e' → T.expr (c.contextCall "precision" [e'])
  init : ∀ {e'} b, T.expr e' → T.expr (c.contextCall "init" [c.slot b, e']) ∧
    T.expr (.assign .assign (c.slot b) (c.contextCall "init" [c.slot b, e']))

theorem step_all {T : Shape} {t : Stmt} (h : isStep t = true) : t.All T := by
  match t with
  | .ret none | .breakLoop | .continueLoop | .empty => trivial

theorem RendersOpt.isSome (h : SlotsOpt s c F e? e?' l) : e?'.isSome = e?.isSome := by
  cases h <;> rfl

/-- Only the body of a function changes, and it stays of its kind. -/
theorem RendersFunc.withBody (h : SlotsFunc s c F f f' l) :
    ∃ body : FuncBody, f' = { f with body } ∧ body.isBlock = f.body.isBlock := by
  cases h <;> exact ⟨_, rfl, rfl⟩

section Shapes

variable {s : Scopes} {c : Setting} {P : Frame → Prop} {N : String → Prop} {L : Log → Prop}
  {S T : Shape} (K : Keeping s c P N L S T)

include K

theorem Keeping.atom_all {e : Expr} (h : isAtom e = true) (he : e.All S) : e.All T := by
  have he := K.atom h he.expr
  cases e with
  | number | str | bool | null | undefined | this => exact he
  | _ => cases h

theorem Keeping.precision_all {e : Expr} (he : e.All T) :
    (c.contextCall "precision" [e]).All T :=
  ⟨K.precision he.expr, K.field (by decide), he, trivial⟩

theorem Keeping.declare_all {F : List Frame} {x : String} (b : Bucket) (hx : S.name x) {e : Expr}
    (he : e.All T) :
    (c.declare (slotIn F x b) e).All T :=
  ⟨(K.init _ he.expr).2, K.slot b hx, (K.init _ he.expr).1, K.field (by decide), K.slot b hx, he,
    trivial⟩

theorem Keeping.entered {F : List Frame} (hF : ∀ f ∈ F, P f) (kind : ScopeKind) (n : Nat) :
    ∀ f ∈ enterIn kind n F, P f :=
  forall_mem_cons.2 ⟨K.enter kind n, hF⟩

theorem Keeping.handed {F : List Frame} {ids : List Ident} (h : ∀ id ∈ ids, S.name id.name)
    (hF : ∀ f ∈ F, P f) :
    ∀ f ∈ handTo F ids, P f :=
  forall_foldl_inner (fun id hid _ hf => K.hand (h id hid) hf) hF

theorem Keeping.counted {F : List Frame} {target : Pattern} (h : target.All S)
    (hN : ∀ x ∈ target.names, N x)
    (hF : ∀ f ∈ F, P f) : ∀ f ∈ countIn F target.boundNames, P f :=
  forall_foldl_inner (fun id hid _ hf =>
    K.count (h id hid) (hN _ (mem_map_of_mem hid)) hf) hF

theorem Keeping.declared {F : List Frame} {x : String} (b : Bucket) (hx : S.name x)
    (hF : ∀ f ∈ F, P f) :
    ∀ f ∈ declareIn F (slotIn F x b), P f := by
  cases F with
  | nil => exact hF
  | cons f F =>
    obtain ⟨hf, hF⟩ := forall_mem_cons.1 hF
    exact forall_mem_cons.2 ⟨K.declare F b hx hf, hF⟩

/-- A declarator that stays may make up a declaration of its own. -/
theorem Keeping.single {ds : List Declarator} {d : Declarator} (hds : S.decls ds) (hd : d ∈ ds) :
    T.decls [d] :=
  K.decls hds (fun _ => cons_ne_nil _ _) (forall_mem_singleton.2 ⟨d, hd, rfl, rfl, rfl⟩)

-- `shaped_opt` uses `K` only through `shaped_expr`, which the linter does not see.
set_option linter.unusedSectionVars false

mutual

/-- **Expressions**: what is made of them has the shape. -/
theorem shaped_expr (h : Slots s c F role e e' l) (hF : ∀ f ∈ F, P f) (hl : L l) (he : e.All S)
    (hn : ∀ x ∈ e.counters, N x) : e'.All T := by
  have hshape := K.expr hF hl he h
  match h with
  | .atom h => exact K.atom_all h he
  | .name h => exact K.use hF he h
  | .member h' => exact ⟨hshape, shaped_expr h' hF hl he.2 hn⟩
  | .index hs hb =>
    have hn := forall_mem_append.1 hn
    have hparts := K.parts hl
    exact ⟨hshape, shaped_expr hb hF hparts.2 he.2.1 hn.1, shaped_expr hs hF hparts.1 he.2.2 hn.2⟩
  | .spaceCall hns ha hk =>
    have hn := forall_mem_append.1 hn
    refine ⟨hshape, K.path (isPath_of_namespaceOf hns) he.2.1,
      Expr.listAll_append.2 ⟨shaped_params ha hF (K.parts hl).1 he.2.2 hn.2, ?_⟩⟩
    cases hk with
    | primary _ => exact ⟨K.key _, trivial⟩
    | other _ => trivial
  | .call hns hc ha =>
    have hn := forall_mem_append.1 hn
    have hparts := K.parts hl
    exact ⟨hshape, shaped_expr hc hF hparts.1 he.2.1 hn.1, shaped_list ha hF hparts.2 he.2.2 hn.2⟩
  | .unary h' => exact ⟨hshape, shaped_expr h' hF hl he.2 hn⟩
  | .update h' => exact ⟨hshape, shaped_target h' hF hl he.2 hn⟩
  | .binary hleft hright | .logical hleft hright =>
    have hn := forall_mem_append.1 hn
    have hparts := K.parts hl
    exact ⟨hshape, shaped_expr hleft hF hparts.1 he.2.1 hn.1,
      shaped_expr hright hF hparts.2 he.2.2 hn.2⟩
  | .conditional ht hc ha =>
    obtain ⟨hntest, hn⟩ := forall_mem_append.1 hn
    have hn := forall_mem_append.1 hn
    obtain ⟨hltest, hparts⟩ := K.parts hl
    have hparts := K.parts hparts
    exact ⟨hshape, shaped_expr ht hF hltest he.2.1 hntest,
      shaped_expr hc hF hparts.1 he.2.2.1 hn.1, shaped_expr ha hF hparts.2 he.2.2.2 hn.2⟩
  | .assign ht hv =>
    have hn := forall_mem_append.1 hn
    have hparts := K.parts hl
    exact ⟨hshape, shaped_target ht hF hparts.1 he.2.1 hn.1, shaped_expr hv hF hparts.2 he.2.2 hn.2⟩
  | .array h' => exact ⟨hshape, shaped_list h' hF hl he.2 hn⟩
  | .object h' => exact ⟨hshape, shaped_props h' hF hl he.2 hn⟩
  | .func h' => exact ⟨hshape, shaped_func h' hF hl he.2 hn⟩

theorem shaped_target (h : SlotsTarget s c F e e' l)
    (hF : ∀ f ∈ F, P f) (hl : L l) (he : e.All S) (hn : ∀ x ∈ e.counters, N x) : e'.All T := by
  have hshape := K.target hF hl he h
  match h with
  | .name _ h => exact K.use hF he h
  | .member h' => exact ⟨hshape, shaped_expr h' hF hl he.2 hn⟩
  | .index hs hb =>
    have hn := forall_mem_append.1 hn
    have hparts := K.parts hl
    exact ⟨hshape, shaped_expr hb hF hparts.2 he.2.1 hn.1, shaped_expr hs hF hparts.1 he.2.2 hn.2⟩
  | .raw h _ => exact K.kept h ▸ he

theorem shaped_list (h : SlotsList s c F es es' l)
    (hF : ∀ f ∈ F, P f) (hl : L l) (he : Expr.ListAll S es)
    (hn : ∀ x ∈ Expr.listCounters es, N x) : Expr.ListAll T es' := by
  match h with
  | .nil => trivial
  | .cons h hs =>
    have hn := forall_mem_append.1 hn
    have hl := K.parts hl
    exact ⟨shaped_expr h hF hl.1 he.1 hn.1, shaped_list hs hF hl.2 he.2 hn.2⟩

theorem shaped_param (h : SlotsParam s c F e e' l)
    (hF : ∀ f ∈ F, P f) (hl : L l) (he : e.All S) (hn : ∀ x ∈ e.counters, N x) : e'.All T := by
  have hshape := K.param hF hl he h
  match h with
  | .func h' => exact ⟨hshape, shaped_func h' hF hl he.2 hn⟩
  | .function _ => exact hshape
  | .series h' =>
    exact ⟨hshape, K.field (by decide), K.use hF he h', K.undefined, K.key _, trivial⟩
  | .offset hs h' =>
    have hn := forall_mem_append.1 hn
    exact ⟨hshape, K.field (by decide), K.use hF he.2.1 h',
      shaped_expr hs hF (K.parts hl).1 he.2.2 hn.2, K.key _, trivial⟩
  | .value h' =>
    exact ⟨hshape, K.field (by decide), shaped_expr h' hF (K.parts hl).1 he hn,
      K.undefined, K.key _, trivial⟩

theorem shaped_params (h : SlotsParams s c F es es' l) (hF : ∀ f ∈ F, P f) (hl : L l)
    (he : Expr.ListAll S es)
    (hn : ∀ x ∈ Expr.listCounters es, N x) : Expr.ListAll T es' := by
  match h with
  | .nil => trivial
  | .cons h hs =>
    have hn := forall_mem_append.1 hn
    have hl := K.parts hl
    exact ⟨shaped_param h hF hl.1 he.1 hn.1, shaped_params hs hF hl.2 he.2 hn.2⟩

theorem shaped_props (h : SlotsProps s c F ps ps' l) (hF : ∀ f ∈ F, P f) (hl : L l)
    (he : Expr.PropAll S ps)
    (hn : ∀ x ∈ Expr.propCounters ps, N x) : Expr.PropAll T ps' := by
  match h with
  | .nil => trivial
  | .cons h hs =>
    have hn := forall_mem_append.1 hn
    have hl := K.parts hl
    exact ⟨shaped_expr h hF hl.1 he.1 hn.1, shaped_props hs hF hl.2 he.2 hn.2⟩

theorem shaped_opt (h : SlotsOpt s c F e? e?' l)
    (hF : ∀ f ∈ F, P f) (hl : L l) (he : Expr.OptAll S e?)
    (hn : ∀ x ∈ Expr.optCounters e?, N x) : Expr.OptAll T e?' := by
  match h with
  | .none => trivial
  | .some h => exact shaped_expr h hF hl he hn

theorem shaped_func (h : SlotsFunc s c F f f' l)
    (hF : ∀ f ∈ F, P f) (hl : L l) (hf : f.All S) (hn : ∀ x ∈ f.counters, N x) : f'.All T := by
  match h with
  | .block h =>
    exact ⟨fun id hid => K.name (hf.1 id hid),
      (shaped_stmts h (K.handed hf.1 (K.entered hF _ _)) (K.parts hl).2 hf.2 hn).1⟩
  | .expr h =>
    exact ⟨fun id hid => K.name (hf.1 id hid), K.precision_all
      (shaped_expr h (K.handed hf.1 (K.entered hF _ _)) (K.parts hl).2 hf.2 hn)⟩

/-- **Statements**: the same, and what is known of the open scopes is known of those that
are open afterwards. -/
theorem shaped_stmt (h : SlotsStmt s c F inside t stmts F' l) (hF : ∀ f ∈ F, P f) (hl : L l)
    (ht : t.All S)
    (hn : ∀ x ∈ t.counters, N x) : Stmt.ListAll T stmts ∧ ∀ f ∈ F', P f := by
  match h with
  | .decl h => exact shaped_decls h hF hl ht.1 (List.Subset.refl _) ht.2 hn
  | .expr h => exact ⟨⟨shaped_expr h hF hl ht hn, trivial⟩, hF⟩
  | .branch hc hs ha =>
    obtain ⟨hntest, hn⟩ := forall_mem_append.1 hn
    have hn := forall_mem_append.1 hn
    obtain ⟨hltest, hl⟩ := K.parts hl
    have hl := K.parts (K.parts hl).2
    exact ⟨⟨⟨shaped_expr hc hF hltest ht.1 hntest,
      (shaped_stmt hs (K.entered hF _ _) hl.1 ht.2.1 hn.1).1,
      shaped_alternate ha hF hl.2 ht.2.2 hn.2⟩, trivial⟩, hF⟩
  | .forLoop _ hi hc hu hs =>
    obtain ⟨hninit, hn⟩ := forall_mem_append.1 hn
    obtain ⟨hntest, hn⟩ := forall_mem_append.1 hn
    have hn := forall_mem_append.1 hn
    obtain ⟨hlinit, hl⟩ := K.parts (K.parts hl).2
    obtain ⟨hltest, hl⟩ := K.parts hl
    have hl := K.parts hl
    obtain ⟨hinit, hF₁⟩ := shaped_header hi (K.entered hF _ _) hlinit ht.1 hninit
    exact ⟨⟨⟨hinit, shaped_opt hc hF₁ hltest ht.2.1 hntest, shaped_opt hu hF₁ hl.1 ht.2.2.1 hn.1,
      (shaped_stmt hs hF₁ hl.2 ht.2.2.2 hn.2).1⟩, trivial⟩, hF⟩
  | .rawLoop h _ => exact ⟨⟨K.kept h ▸ ht, trivial⟩, hF⟩
  | .whileLoop hc hs =>
    have hn := forall_mem_append.1 hn
    have hl := K.parts (K.parts hl).2
    exact ⟨⟨⟨shaped_expr hc (K.entered hF _ _) hl.1 ht.1 hn.1,
      (shaped_stmt hs (K.entered hF _ _) hl.2 ht.2 hn.2).1⟩, trivial⟩, hF⟩
  | .block h =>
    obtain ⟨hstmts, hF'⟩ := shaped_stmts h hF hl ht hn
    refine ⟨?_, hF'⟩
    split
    · exact hstmts
    · exact ⟨hstmts, trivial⟩
  | .ret h =>
    have he := shaped_expr h hF hl ht hn
    refine ⟨⟨?_, trivial⟩, hF⟩
    split
    · exact K.precision_all he
    · exact he
  | .func h =>
    have hf := shaped_func h hF hl ht.2.2 hn
    have hnamed := K.named ht.1 h
    obtain ⟨body, rfl, -⟩ := h.withBody
    exact ⟨⟨⟨hnamed, fun id hid => K.name (ht.2.1 id hid), hf⟩, trivial⟩, hF⟩
  | .step h => exact ⟨⟨step_all h, trivial⟩, hF⟩

theorem shaped_stmts (h : SlotsStmts s c F ts ts' F' l) (hF : ∀ f ∈ F, P f) (hl : L l)
    (ht : Stmt.ListAll S ts)
    (hn : ∀ x ∈ Stmt.listCounters ts, N x) : Stmt.ListAll T ts' ∧ ∀ f ∈ F', P f := by
  match h with
  | .nil => exact ⟨trivial, hF⟩
  | .cons h hs =>
    have hn := forall_mem_append.1 hn
    have hl := K.parts hl
    obtain ⟨hstmt, hF₁⟩ := shaped_stmt h hF hl.1 ht.1 hn.1
    obtain ⟨hstmts, hF₂⟩ := shaped_stmts hs hF₁ hl.2 ht.2 hn.2
    exact ⟨Stmt.listAll_append.2 ⟨hstmt, hstmts⟩, hF₂⟩

theorem shaped_alternate (h : SlotsAlternate s c F t? t?' l) (hF : ∀ f ∈ F, P f) (hl : L l)
    (ht : Stmt.OptAll S t?)
    (hn : ∀ x ∈ Stmt.optCounters t?, N x) : Stmt.OptAll T t?' := by
  match h with
  | .none => trivial
  | .some h => exact (shaped_stmt h (K.entered hF _ _) (K.parts hl).2 ht hn).1

theorem shaped_decls {all : List Declarator} (h : SlotsDecls s c F kind ds stmts F' l)
    (hF : ∀ f ∈ F, P f)
    (hl : L l) (hall : S.decls all) (hsub : ds ⊆ all) (hd : Declarator.ListAll S ds)
    (hn : ∀ x ∈ Declarator.listCounters ds, N x) : Stmt.ListAll T stmts ∧ ∀ f ∈ F', P f := by
  match h with
  | .nil => exact ⟨trivial, hF⟩
  | .read hread hs =>
    have hn := forall_mem_append.1 hn
    obtain ⟨hfirst, hsub⟩ := cons_subset.1 hsub
    obtain ⟨hstmts, hF'⟩ := shaped_decls hs (K.handed hd.1 hF) hl hall hsub hd.2.2 hn.2
    exact ⟨⟨⟨K.single hall hfirst, fun id hid => K.name (hd.1 id hid),
      K.path (isPath_of_isContextRead hread) hd.2.1, trivial⟩, hstmts⟩, hF'⟩
  | .slot _ hi hs =>
    have hn := forall_mem_append.1 hn
    have hl := K.parts hl
    have hname := hd.1 _ mem_cons_self
    obtain ⟨hstmts, hF'⟩ := shaped_decls hs (K.declared _ hname hF) hl.2 hall
      (cons_subset.1 hsub).2 hd.2.2 hn.2
    exact ⟨⟨K.declare_all _ hname (shaped_init hi hF hl.1 hd.2.1 hn.1), hstmts⟩, hF'⟩
  | .raw h _ _ hs =>
    have hn := forall_mem_append.1 hn
    obtain ⟨hfirst, hsub⟩ := cons_subset.1 hsub
    obtain ⟨hstmts, hF'⟩ := shaped_decls hs (K.handed hd.1 hF) (K.parts hl).2 hall hsub hd.2.2 hn.2
    exact ⟨⟨⟨K.single hall hfirst, fun id hid => K.name (hd.1 id hid), K.kept h ▸ hd.2.1, trivial⟩,
      hstmts⟩, hF'⟩

theorem shaped_init (h : SlotsInit s c F e? e' l) (hF : ∀ f ∈ F, P f) (hl : L l)
    (he : Expr.OptAll S e?)
    (hn : ∀ x ∈ Expr.optCounters e?, N x) : e'.All T := by
  match h with
  | .none => exact K.undefined
  | .some h => exact shaped_expr h hF hl he hn
  | .element h =>
    have hcurrent := K.use hF he.2.1 h
    exact ⟨K.element _ hcurrent.expr, hcurrent, K.atom_all rfl he.2.2⟩

theorem shaped_header (h : SlotsHeader s c F init init' F' l) (hF : ∀ f ∈ F, P f) (hl : L l)
    (hi : ForInit.OptAll S init) (hn : ∀ x ∈ ForInit.counters init, N x) :
    ForInit.OptAll T init' ∧ ∀ f ∈ F', P f := by
  match h with
  | .none => exact ⟨trivial, hF⟩
  | .decl h =>
    have hn := forall_mem_append.1 hn
    obtain ⟨hds, hne, hlike, hF'⟩ := shaped_counters h hF hl hi.2 hn.1 hn.2
    exact ⟨⟨K.decls hi.1 hne hlike, hds⟩, hF'⟩
  | .expr h => exact ⟨shaped_expr h hF hl hi hn, hF⟩

theorem shaped_counters (h : SlotsCounters s c F ds ds' F' l) (hF : ∀ f ∈ F, P f) (hl : L l)
    (hd : Declarator.ListAll S ds) (hnames : ∀ x ∈ ds.flatMap fun d => d.target.names, N x)
    (hn : ∀ x ∈ Declarator.listCounters ds, N x) :
    Declarator.ListAll T ds' ∧ (ds ≠ [] → ds' ≠ []) ∧ (∀ d ∈ ds', ∃ d' ∈ ds, d.Like d') ∧
      ∀ f ∈ F', P f := by
  match h with
  | .nil => exact ⟨trivial, id, fun _ h => (nomatch h), hF⟩
  | .cons hi hs =>
    have hn := forall_mem_append.1 hn
    have hnames := forall_mem_append.1 hnames
    have hl := K.parts hl
    obtain ⟨hds, -, hlike, hF'⟩ := shaped_counters hs (K.counted hd.1 hnames.1 hF) hl.2 hd.2.2
      hnames.2 hn.2
    refine ⟨⟨fun id hid => K.name (hd.1 id hid), shaped_opt hi hF hl.1 hd.2.1 hn.1, hds⟩,
      fun _ => cons_ne_nil _ _, forall_mem_cons.2 ⟨?_, fun d hd => ?_⟩, hF'⟩
    · exact ⟨_, mem_cons_self, rfl, hi.isSome, rfl⟩
    · obtain ⟨d', hd', hlike⟩ := hlike d hd
      exact ⟨d', mem_cons_of_mem _ hd', hlike⟩

end

/-- **Slotted scripts** have the shape. -/
theorem shaped_body (h : SlotsBody s c F body body' l)
    (hF : ∀ f ∈ F, P f) (hl : L l) (hbody : body.All S) (hn : ∀ x ∈ body.counters, N x) :
    body'.All T ∧ body'.isBlock = body.isBlock := by
  cases h with
  | block h => exact ⟨(shaped_stmts K h hF hl hbody hn).1, rfl⟩
  | expr h => exact ⟨shaped_expr K h hF hl hbody hn, rfl⟩

end Shapes

/-! ## Forms -/

/-- What has to be known and allowed if the slotted form of every script of the shape `S`
has the shape `T`, and of what is neither assigned to, nor a name, a field, a number or a
function, nothing is asked. -/
structure Forms (s : Scopes) (c : Setting) (P : Frame → Prop) (S T : Shape) : Prop where
  enter : ∀ kind n, P { kind, serial := n }
  hand : ∀ {f x}, S.name x → P f → P { f with bound := f.bound.insert x }
  count : ∀ {f x}, S.name x → P f → P { f with loopVars := f.loopVars.insert x }
  declare : ∀ {f x} F b, S.name x → P f → P { f with vars := (x, slotIn (f :: F) x b) :: f.vars }
  kept : c.options.unsupported = .passThrough → S = T
  name : ∀ {x}, S.name x → T.name x
  decls : S.Redeclares T
  plain : ∀ {e : Expr}, e.IsPlain → T.expr e
  ident : ∀ {id}, S.expr (.ident id) → T.expr (.ident id)
  member : ∀ {base base' property}, S.expr (.member base property) → T.expr (.member base' property)
  context : T.expr c.context
  field : ∀ {x} base, x ∈ contextFields → T.expr (.member base x)
  /-- The slots of names that the open scopes know. -/
  slot : ∀ {F x b} base, (∀ f ∈ F, P f) → lookIn s F x = some (.slot b) →
    T.expr (.member base b.slot)
  /-- The slots of names that are declared. -/
  fresh : ∀ {F x} b base, S.name x → T.expr (.member base (slotIn F x b).slot)
  number : ∀ {x}, S.expr (.number x) → T.expr (.number x)
  /-- The place of the current value of a slot. -/
  zero : T.expr (.number 0.0)
  declared : ∀ b e, T.expr (.assign .assign (c.slot b) (c.contextCall "init" [c.slot b, e]))
  assign : ∀ {F op t v t' l} v', (∀ f ∈ F, P f) → S.expr (.assign op t v) →
    SlotsTarget s c F t t' l → T.expr (.assign op t' v')
  update : ∀ {F op first t t' l}, (∀ f ∈ F, P f) → S.expr (.update op first t) →
    SlotsTarget s c F t t' l → T.expr (.update op first t')
  func : ∀ {F f f' l}, S.expr (.func f) → SlotsFunc s c F f f' l → T.expr (.func f')
  named : ∀ {F f f' l}, S.named f → SlotsFunc s c F f f' l → T.named f'

section Forms

variable {s : Scopes} {c : Setting} {P : Frame → Prop} {S T : Shape} (H : Forms s c P S T)

include H

theorem Forms.slot_all {b : Binding} (hb : ∀ base, T.expr (.member base b.slot)) :
    (c.slot b).All T :=
  ⟨hb _, H.field _ (bucket_mem_contextFields b.bucket), H.context⟩

theorem Forms.use {F : List Frame} {role : Role} {id : Ident} {e' : Expr} (hF : ∀ f ∈ F, P f)
    (hid : S.expr (.ident id)) (h : Uses s c F role id e') : e'.All T := by
  cases h with
  | current h => exact ⟨H.plain trivial, H.slot_all fun base => H.slot base hF h, H.zero⟩
  | history h => exact H.slot_all fun base => H.slot base hF h
  | kept => exact H.ident hid

theorem Forms.path_all {e : Expr} (h : IsPath e) (he : e.All S) : e.All T := by
  match e with
  | .ident _ => exact H.ident he
  | .member base _ => exact ⟨H.member he.1, Forms.path_all h he.2⟩

theorem Forms.atom {e : Expr} (h : isAtom e = true) (he : S.expr e) : T.expr e := by
  cases e with
  | number => exact H.number he
  | str | bool | null | undefined | this => exact H.plain trivial
  | _ => cases h

theorem Forms.keeping : Keeping s c P (fun _ => True) (fun _ => True) S T where
  enter := H.enter
  hand := H.hand
  count hx _ := H.count hx
  declare := H.declare
  parts _ := ⟨trivial, trivial⟩
  kept := H.kept
  name := H.name
  named := H.named
  decls := H.decls
  expr hF _ he h := by
    cases h with
    | atom h => exact H.atom h he.expr
    | name h => exact (H.use hF he h).expr
    | member h => exact H.member he.1
    | update h => exact H.update hF he.1 h
    | assign ht hv => exact H.assign _ hF he.1 ht
    | func h => exact H.func he.1 h
    | _ => exact H.plain trivial
  target hF _ he h := by
    cases h with
    | name _ h => exact (H.use hF he h).expr
    | member h => exact H.member he.1
    | index hs hb => exact H.plain trivial
    | raw h => exact H.kept h ▸ he.expr
  param hF _ he h := by
    cases h with
    | func h => exact H.func he.1 h
    | function h => exact H.ident he
    | _ => exact H.plain trivial
  use := H.use
  path := H.path_all
  atom := H.atom
  field hx := ⟨H.field _ hx, H.context⟩
  slot b hx := H.slot_all fun base => H.fresh b base hx
  undefined := H.plain trivial
  key _ := H.plain trivial
  element _ _ := H.plain trivial
  precision _ := H.plain trivial
  init _ _ := ⟨H.plain trivial, H.declared _ _⟩

end Forms

/-! ## Compiled scripts -/

/-- The keys of arguments in a complete log differ. -/
theorem Complete.nodup_params {l : Log} {progress : Progress} (h : Complete l progress) :
    l.params.Nodup := by
  rw [h.params]
  exact nodup_range.map fun a b hab =>
    Scopes.repr_injective (String.append_right_inj _ |>.1 hab)

/-- **Compiled scripts** have the shape, if it allows calls in the place of equality
operators; only the body of the script changes. -/
theorem compiled_shaped {p q : Program} {options : Options} {counters : Counters}
    {P : Frame → Prop} {N : String → Prop} {L : Log → Prop} {S T : Shape}
    (h : p.compiled options = .ok (q, counters))
    (K : Keeping (p.stages options).met.scopes ⟨options, p.rootParam⟩ P N L S T)
    (hS : NormalForm.Keeps p.rootParam (p.scoped {}).reserved S) (hp : p.root.body.All S)
    (hL : ∀ l progress, Complete l progress → L l)
    (hN : ∀ x ∈ (p.stages options).normal.root.counters, N x)
    (htolerant : Equality.Keeps p.rootParam T) :
    ∃ body : FuncBody, q = ⟨{ p.root with body }⟩ ∧ body.All T ∧
      body.isBlock = p.root.body.isBlock := by
  obtain ⟨⟨slotted, progress⟩, hslotted, hq⟩ := Except.of_bind_eq_ok h
  obtain ⟨body, l, rfl, hbody, hl⟩ := stages_slots hslotted
  obtain ⟨hall, hkind⟩ := shaped_body K hbody (forall_mem_singleton.2 (K.enter _ _))
    (hL l progress hl) (Program.normal_all hS hp).1 hN
  obtain ⟨body', hbody', hall', hkind'⟩ := Program.tolerant_all
    (p := ⟨{ (p.stages options).normal.root with body }⟩) htolerant hall
  have hq : q = _ := (congrArg Prod.fst (Except.ok.inj hq)).symm
  exact ⟨body', hq.trans hbody', hall', hkind'.trans (hkind.trans (p.isBlock_normal {}))⟩

end Naming

end BarScript

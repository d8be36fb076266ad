import BarScript.Proofs.Coverage.Compiled

/-!
# What is left of the variables of a script

A slotted script keeps its variables in slots. Slotting goes over the statements of the
normal form one by one and makes one statement of each: a declaration becomes the declaration
of a slot unless it reads the context, the header of a loop keeps its variables, and a
function its name. Under the strict policy nothing else gets through, so what is declared in
the slotted script reads the context, and the header of a loop binds single names.

What is still used as a name is then known from the covers of the slotted script: it is the
context, a parameter or a variable of a loop around it, a number, a namespace of the analysis,
or one of the names that statements keep.
-/

namespace BarScript

open Slotted Naming List

/-! ## One statement of each -/

def ForInit.targets : Option ForInit → List Pattern
  | some (.decl ⟨_, declarators⟩) => declarators.map Declarator.target
  | _ => []

def Stmt.binds : Stmt → Bool
  | .decl _ | .forLoop _ _ _ _ | .func _ => true
  | _ => false

/-- What slotting makes of one statement of the normal form. -/
inductive Stmt.Turns (c : Setting) : Stmt → Stmt → Prop
  /-- What is read off the context stays. -/
  | read {kind : DeclKind} {target : Pattern} {init : Expr} {pos : Position}
    (h : init.isContextRead c.root = true) :
    Turns c (.decl ⟨kind, [⟨target, some init, pos⟩]⟩) (.decl ⟨kind, [⟨target, some init, pos⟩]⟩)
  /-- Any other declaration is of a single name, and becomes the declaration of a slot. -/
  | slot {kind : DeclKind} {id : Ident} {init : Option Expr} {pos : Position} {b : Binding}
    {e : Expr} (hread : ¬ init.any (Expr.isContextRead c.root) = true) (hname : b.name = id.name)
    (hbucket : b.bucket = kind.bucket) (hslot : b.slot = Scopes.slotName b.scope b.serial id.name) :
    Turns c (.decl ⟨kind, [⟨.ident id, init, pos⟩]⟩) (c.declare b e)
  | loop {init init' : Option ForInit} {test test' update update' : Option Expr}
    {body body' : Stmt} (h : ForInit.targets init' = ForInit.targets init)
    (hplain : ∀ t ∈ ForInit.targets init', ∃ id, t = .ident id) :
    Turns c (.forLoop init test update body) (.forLoop init' test' update' body')
  | func {f : Func} {body : FuncBody} : Turns c (.func f) (.func { f with body })
  | other {s s' : Stmt} (hs : s.binds = false) (hs' : s'.binds = false) : Turns c s s'

abbrev Turned (c : Setting) (src dst : List Stmt) : Prop :=
  List.Forall₂ (Stmt.Turns c) src dst

/-- Declarations read the context, and the headers of loops bind single names. -/
def Stmt.Settled (root : String) : Stmt → Prop
  | .decl ⟨_, declarators⟩ => ∀ d ∈ declarators, d.init.any (Expr.isContextRead root) = true
  | .forLoop init _ _ _ => ∀ t ∈ ForInit.targets init, ∃ id, t = .ident id
  | _ => True

section Turned

variable {c : Setting} {src dst : List Stmt} {x : String}

theorem Stmt.Turns.settled (h : Turns c s s') : s'.Settled c.root := by
  cases h with
  | read h => exact forall_mem_singleton.2 h
  | slot => exact trivial
  | loop _ hplain => exact hplain
  | func => exact trivial
  | other _ hs' =>
    cases s' with
    | decl | forLoop => cases hs'
    | _ => exact trivial

theorem Stmt.Turns.kept {s s' : Stmt} (h : Turns c s s') (hx : x ∈ s.keptNames c.root) :
    x ∈ s'.keptNames c.root := by
  cases h with
  | read | func => exact hx
  | @slot kind id init pos _ _ hread =>
    have hx : x ∈ (Stmt.decl ⟨kind, [⟨.ident id, init, pos⟩]⟩).readNames c.root := hx
    exact absurd (mem_readNames_single.1 hx).1 hread
  | loop => cases hx
  | other hs =>
    cases s with
    | decl | forLoop | func => cases hs
    | _ => cases hx

theorem Stmt.Turns.declared (h : Turns c s s') (hx : x ∈ s.declaredNames) :
    x ∈ s'.keptNames c.root ∨ ∃ b e, b.name = x ∧ s' = c.declare b e ∧
      b.slot = Scopes.slotName b.scope b.serial x := by
  cases h with
  | read hread =>
    refine .inl (Stmt.keptNames_of_read ?_)
    exact mem_readNames_single.2 ⟨hread, mem_declaredNames_single.1 hx⟩
  | slot _ hname _ hslot =>
    cases mem_singleton.1 (mem_declaredNames_single.1 hx)
    exact .inr ⟨_, _, hname, rfl, hslot⟩
  | loop | func => cases hx
  | other hs =>
    cases s with
    | decl | forLoop | func => cases hs
    | _ => cases hx

theorem Turned.exists_left (h : Turned c src dst) (hs : s' ∈ dst) : ∃ s ∈ src, s.Turns c s' := by
  induction h with
  | nil => cases hs
  | cons h _ ih =>
    rcases mem_cons.1 hs with rfl | hs
    · exact ⟨_, mem_cons_self, h⟩
    · exact (ih hs).imp fun s hs => ⟨mem_cons_of_mem _ hs.1, hs.2⟩

theorem Turned.exists_right (h : Turned c src dst) (hs : s ∈ src) : ∃ s' ∈ dst, s.Turns c s' := by
  induction h with
  | nil => cases hs
  | cons h _ ih =>
    rcases mem_cons.1 hs with rfl | hs
    · exact ⟨_, mem_cons_self, h⟩
    · exact (ih hs).imp fun s hs => ⟨mem_cons_of_mem _ hs.1, hs.2⟩

theorem Turned.kept (h : Turned c src dst) (hx : x ∈ keptIn c.root src) :
    x ∈ keptIn c.root dst := by
  obtain ⟨s, hs, hx⟩ := mem_flatMap.1 hx
  obtain ⟨s', hs', hturns⟩ := h.exists_right hs
  exact mem_flatMap.2 ⟨s', hs', hturns.kept hx⟩

theorem Turned.append (h : Turned c src dst) (h' : Turned c src' dst') :
    Turned c (src ++ src') (dst ++ dst') :=
  rel_append h h'

theorem Turned.append_nil (h : Turned c src dst) : Turned c src (dst ++ []) :=
  (List.append_nil dst).symm ▸ h

end Turned

/-! ## What has no statements in it -/

theorem statements_of_isPath (h : IsPath e) : e.statements = [] := by
  match e with
  | .ident _ => rfl
  | .member base _ => exact statements_of_isPath (e := base) h

theorem statements_of_isAtom (h : isAtom e = true) : e.statements = [] := by
  cases e with
  | number | str | bool | null | undefined | this => rfl
  | _ => cases h

theorem Naming.Uses.statements {id : Ident} (h : Uses s c F role id e) : e.statements = [] := by
  cases h <;> rfl

theorem Naming.Keys.statements {c : Setting} {ns : String} {keys : List Expr} {l : Log}
    (h : Keys c ns keys l) : Expr.listStatements keys = [] := by
  cases h <;> rfl

theorem Expr.listStatements_append (es es' : List Expr) :
    Expr.listStatements (es ++ es') = Expr.listStatements es ++ Expr.listStatements es' := by
  induction es with
  | nil => rfl
  | cons e rest ih =>
    show e.statements ++ Expr.listStatements (rest ++ es') = _
    rw [ih, ← append_assoc]
    rfl

theorem ident_of_patternPos? (h : patternPos? ds = none) :
    ∀ t ∈ ds.map Declarator.target, ∃ id, t = .ident id := by
  induction ds with
  | nil => exact fun _ ht => by cases ht
  | cons d rest ih =>
    obtain ⟨target, init, pos⟩ := d
    cases target with
    | ident id => exact forall_mem_cons.2 ⟨⟨id, rfl⟩, ih h⟩
    | _ => cases h

theorem ident_of_headerPatternPos? (h : headerPatternPos? init = none) :
    ∀ t ∈ ForInit.targets init, ∃ id, t = .ident id := by
  match init with
  | some (.decl ⟨_, ds⟩) => exact ident_of_patternPos? h
  | some (.expr _) | none => exact fun _ ht => by cases ht

/-! ## Trees -/

section Trees

variable {s : Scopes} {c : Setting}

/-- The statements of a wrap are those of what it wraps. -/
theorem turned_param_of {series offset : Expr} (h : Turned c src
    (series.statements ++ offset.statements)) :
    Turned c src (c.param series offset key).statements := by
  show Turned c src (series.statements ++ (offset.statements ++ []))
  rw [List.append_nil]
  exact h

theorem turned_step (h : isStep t = true) : Turned c t.statements (Stmt.listStatements [t]) := by
  match t with
  | .ret none | .breakLoop | .continueLoop | .empty => exact .cons (.other rfl rfl) .nil

variable (hc : c.options.unsupported = .strict)

include hc

set_option linter.unusedSectionVars false -- used through other members

mutual

/-- **Expressions**: slotting makes one statement of each in them. -/
theorem turned_expr {F : List Frame} {role : Role} {e e' : Expr} {l : Log}
    (h : Slots s c F role e e' l) : Turned c e.statements e'.statements := by
  match h with
  | .atom h =>
    rw [statements_of_isAtom h]
    exact .nil
  | .name h =>
    rw [h.statements]
    exact .nil
  | .member h => exact (turned_expr h :)
  | .index hs hb => exact (turned_expr hb).append (turned_expr hs)
  | .spaceCall hns ha hk =>
    show Turned c (Expr.statements _ ++ _) (Expr.statements _ ++ Expr.listStatements (_ ++ _))
    rw [statements_of_isPath (isPath_of_namespaceOf hns), Expr.listStatements_append, hk.statements]
    exact (turned_params ha).append_nil
  | .call _ hcallee ha => exact (turned_expr hcallee).append (turned_list ha)
  | .unary h => exact (turned_expr h :)
  | .update h => exact (turned_target h :)
  | .binary hl hr | .logical hl hr => exact (turned_expr hl).append (turned_expr hr)
  | .conditional ht hs ha =>
    exact (turned_expr ht).append ((turned_expr hs).append (turned_expr ha))
  | .assign ht hv => exact (turned_target ht).append (turned_expr hv)
  | .array h => exact turned_list h
  | .object h => exact turned_props h
  | .func h => exact turned_func h

theorem turned_target (h : SlotsTarget s c F e e' l) : Turned c e.statements e'.statements := by
  match h with
  | .name _ h =>
    rw [h.statements]
    exact .nil
  | .member h => exact (turned_expr h :)
  | .index hs hb => exact (turned_expr hb).append (turned_expr hs)
  | .raw h _ => cases hc.symm.trans h

theorem turned_list (h : SlotsList s c F es es' l) :
    Turned c (Expr.listStatements es) (Expr.listStatements es') := by
  match h with
  | .nil => exact .nil
  | .cons h hs => exact (turned_expr h).append (turned_list hs)

theorem turned_param (h : SlotsParam s c F e e' l) : Turned c e.statements e'.statements := by
  match h with
  | .func h => exact turned_func h
  | .function _ => exact .nil
  | .series h =>
    refine turned_param_of ?_
    rw [h.statements]
    exact .nil
  | .offset hs h =>
    refine turned_param_of ?_
    rw [h.statements]
    exact (turned_expr hs :)
  | .value h => exact turned_param_of (turned_expr h).append_nil

theorem turned_params (h : SlotsParams s c F es es' l) :
    Turned c (Expr.listStatements es) (Expr.listStatements es') := by
  match h with
  | .nil => exact .nil
  | .cons h hs => exact (turned_param h).append (turned_params hs)

theorem turned_props (h : SlotsProps s c F ps ps' l) :
    Turned c (Expr.propStatements ps) (Expr.propStatements ps') := by
  match h with
  | .nil => exact .nil
  | .cons h hs => exact (turned_expr h).append (turned_props hs)

theorem turned_opt (h : SlotsOpt s c F e? e?' l) :
    Turned c (Expr.optStatements e?) (Expr.optStatements e?') := by
  match h with
  | .none => exact .nil
  | .some h => exact turned_expr h

theorem turned_func (h : SlotsFunc s c F f f' l) : Turned c f.statements f'.statements := by
  match h with
  | .block h => exact turned_stmts h
  | .expr h => exact (turned_expr h).append_nil

/-- **Statements**: slotting makes one of each. -/
theorem turned_stmt (h : SlotsStmt s c F inside t stmts F' l) :
    Turned c t.statements (Stmt.listStatements stmts) := by
  match h with
  | .decl h => exact turned_decls h
  | .expr h => exact .cons (.other rfl rfl) (turned_expr h).append_nil
  | .branch ht hs ha =>
    exact .cons (.other rfl rfl)
      ((turned_expr ht).append ((turned_stmt hs).append (turned_alternate ha))).append_nil
  | .forLoop hplain hi ht hu hs =>
    obtain ⟨hinit, htargets⟩ := turned_header hi
    exact .cons (.loop htargets (htargets ▸ ident_of_headerPatternPos? hplain))
      (hinit.append ((turned_opt ht).append ((turned_opt hu).append (turned_stmt hs)))).append_nil
  | .rawLoop h _ => cases hc.symm.trans h
  | .whileLoop ht hs =>
    exact .cons (.other rfl rfl) ((turned_expr ht).append (turned_stmt hs)).append_nil
  | .block h =>
    split
    · exact turned_stmts h
    · exact (turned_stmts h).append_nil
  | .ret h =>
    refine .cons (.other rfl rfl) (Turned.append_nil ?_)
    split
    · exact (turned_expr h).append_nil
    · exact turned_expr h
  | .func h =>
    have hf := turned_func h
    obtain ⟨body, rfl, -⟩ := h.withBody
    exact .cons .func hf.append_nil
  | .step h => exact turned_step h

theorem turned_stmts (h : SlotsStmts s c F ts ts' F' l) :
    Turned c (Stmt.listStatements ts) (Stmt.listStatements ts') := by
  match h with
  | .nil => exact .nil
  | .cons h hs =>
    rw [Stmt.listStatements_append]
    exact (turned_stmt h).append (turned_stmts hs)

theorem turned_alternate (h : SlotsAlternate s c F t? t?' l) :
    Turned c (Stmt.optStatements t?) (Stmt.optStatements t?') := by
  match h with
  | .none => exact .nil
  | .some h => exact turned_stmt h

theorem turned_decls (h : SlotsDecls s c F kind ds stmts F' l) :
    Turned c (Declarator.listStatements kind ds) (Stmt.listStatements stmts) := by
  match h with
  | .nil => exact .nil
  | .read hread hs =>
    refine .cons (.read hread) (Turned.append ?_ (turned_decls hs))
    show Turned c (Expr.statements _) (Expr.statements _ ++ [])
    rw [statements_of_isPath (isPath_of_isContextRead hread)]
    exact .nil
  | .slot hread hi hs =>
    exact .cons (.slot hread rfl rfl rfl) ((turned_init hi).append_nil.append (turned_decls hs))
  | .raw h _ _ _ => cases hc.symm.trans h

theorem turned_init (h : SlotsInit s c F e? e' l) :
    Turned c (Expr.optStatements e?) e'.statements := by
  match h with
  | .none => exact .nil
  | .some h => exact turned_expr h
  | .element h =>
    show Turned c [] (_ ++ [])
    rw [h.statements]
    exact .nil

theorem turned_header (h : SlotsHeader s c F init init' F' l) :
    Turned c (ForInit.optStatements init) (ForInit.optStatements init') ∧
      ForInit.targets init' = ForInit.targets init := by
  match h with
  | .none => exact ⟨.nil, rfl⟩
  | .decl h => exact turned_counters h
  | .expr h => exact ⟨turned_expr h, rfl⟩

theorem turned_counters (h : SlotsCounters s c F ds ds' F' l) :
    Turned c (Declarator.headerStatements ds) (Declarator.headerStatements ds') ∧
      ds'.map Declarator.target = ds.map Declarator.target := by
  match h with
  | .nil => exact ⟨.nil, rfl⟩
  | .cons hi hs =>
    obtain ⟨hrest, htargets⟩ := turned_counters hs
    exact ⟨(turned_opt hi).append hrest, congrArg (_ :: ·) htargets⟩

end

theorem turned_body (h : SlotsBody s c F body body' l) :
    Turned c body.statements body'.statements := by
  cases h with
  | block h => exact turned_stmts hc h
  | expr h => exact turned_expr hc h

end Trees

/-- **The second stage** makes one statement of each of the normal form. -/
theorem Program.turned_slotted {p slotted : Program} {options : Options} {progress : Progress}
    (hstrict : options.unsupported = .strict)
    (h : (p.stages options).slotted = .ok (slotted, progress)) :
    Turned ⟨options, p.rootParam⟩ (p.stages options).normal.root.body.statements
      slotted.root.body.statements := by
  obtain ⟨body, l, rfl, hbody, -⟩ := stages_slots h
  exact turned_body hstrict hbody

/-! ## The names that are left -/

/-- What is left of the variables of a script in its slotted form. -/
structure Program.SettledBy (p : Program) (options : Options) (slotted : Program) : Prop where
  /-- Every statement of the normal form has become one. -/
  turned : Turned ⟨options, p.rootParam⟩ (p.stages options).normal.root.body.statements
    slotted.root.body.statements
  /-- Declarations read the context, and the headers of loops bind single names. -/
  settled : ∀ s ∈ slotted.root.body.statements, s.Settled p.rootParam
  /-- What the script declares is kept by a statement, or has a slot. -/
  declared : ∀ x ∈ declaredIn p.root.body.statements,
    x ∈ keptIn p.rootParam slotted.root.body.statements ∨ ∃ b e, b.name = x ∧
      b.slot = Scopes.slotName b.scope b.serial x ∧
      (Setting.mk options p.rootParam).declare b e ∈ slotted.root.body.statements
  /-- A name that is used is the context, a parameter or a variable of a loop around it, or it
  is a number, a namespace of the analysis or kept by a statement. -/
  names : ∀ x ∈ slotted.root.body.uncovered (fun _ => false) [p.rootParam],
    isNumberName x = true ∨ options.isAnalysis x = true ∨
      x ∈ keptIn p.rootParam slotted.root.body.statements

/-- **No variable is left as a name.** Take any script that the strict policy lets through. In its
slotted form every declaration reads the context, and every header of a loop binds single names.
Every other name that the script declares has a slot, which is declared under this name; and what
is used as a name is the context, a parameter of a function or a variable of a loop around it, a
number, a namespace of the analysis, a name that a declaration reads off the context, or the name
of a function. -/
theorem variables_leave_as_slots {p slotted : Program} {options : Options} {progress : Progress}
    (hstrict : options.unsupported = .strict)
    (h : (p.stages options).slotted = .ok (slotted, progress)) : p.SettledBy options slotted := by
  have hturned := Program.turned_slotted hstrict h
  obtain ⟨hnoted, hdeclared⟩ := p.notes_normal
  have hkept : ∀ x ∈ keptIn p.rootParam (p.normal {}).1.root.body.statements,
      x ∈ keptIn p.rootParam slotted.root.body.statements := fun _ hx => hturned.kept hx
  refine ⟨hturned, fun s hs => ?_, fun x hx => ?_, ?_⟩
  · obtain ⟨_, _, hturns⟩ := hturned.exists_left hs
    exact hturns.settled
  · rcases hdeclared x hx with hx | hx
    · obtain ⟨s, hs, hx⟩ := List.mem_flatMap.1 hx
      obtain ⟨s', hs', hturns⟩ := hturned.exists_right hs
      rcases hturns.declared hx with hx | ⟨b, e, hname, rfl, hslot⟩
      · exact .inl (List.mem_flatMap.2 ⟨s', hs', hx⟩)
      · exact .inr ⟨b, e, hname, hslot, hs'⟩
    · exact .inl (hkept x hx)
  · refine Coverage.covered_slotted hstrict h ?_ ?_ ?_ (fun _ => .inl) (fun _ hx => .inr (.inl hx))
      List.mem_cons_self
    · exact fun x hx => .inr (.inr (hkept x (hnoted x (.inl hx))))
    · exact fun x hx => .inr (.inr (hkept x (hnoted x (.inr hx))))
    · exact fun s hs x hx => .inr (.inr (hkept x
        (List.mem_flatMap.2 ⟨s, hs, Stmt.keptNames_of_read hx⟩)))

/-- A script with a tuple, a function and a loop:
`c => { const { close } = c.data; let [a, b] = [close, 1]; const f = (x) => x + a;
for (let i = 0; i < 2; i++) { b += f(i) } return b }`. -/
def variablesText : String :=
  "c => \x7b const \x7b close \x7d = c.data; let [a, b] = [close, 1]; const f = (x) => x + a; " ++
    "for (let i = 0; i < 2; i++) \x7b b += f(i) \x7d return b \x7d"

set_option maxRecDepth 100000 in
theorem variables_leave_as_slots_tuple :
    ∃ p slotted progress, parse variablesText = .ok p ∧
      ({} : Options).unsupported = .strict ∧ (p.stages {}).slotted = .ok (slotted, progress) ∧
      "b" ∈ declaredIn p.root.body.statements ∧ p.SettledBy {} slotted := by
  have h : Except.gives (fun p => Except.gives (fun _ =>
      decide ("b" ∈ declaredIn p.root.body.statements)) (p.stages {}).slotted)
      (parse variablesText) = true := by
    refine gives_parse (toList_append_of String.toList_ofList String.toList_ofList) ?_
    decide +kernel
  obtain ⟨p, hparse, h⟩ := Except.exists_of_gives h
  obtain ⟨⟨slotted, progress⟩, hslotted, h⟩ := Except.exists_of_gives h
  exact ⟨p, slotted, progress, hparse, rfl, hslotted, of_decide_eq_true h,
    variables_leave_as_slots rfl hslotted⟩

end BarScript

import BarScript.Proofs.Shape

/-!
# Trees without positions

Two things of a tree do not survive printing: where its names were written, and
whether a body of one statement stood in braces. `bare` forgets both, so two
trees with the same bare form are the same script. A shape that asks about
neither is the same for a tree and for its bare form.
-/

namespace BarScript

def Ident.bare (id : Ident) : Ident :=
  ⟨id.name, {}⟩

def Pattern.bare : Pattern → Pattern
  | .ident id => .ident id.bare
  | .object props => .object (props.map fun p => (p.1, p.2.bare))
  | .array items => .array (items.map fun item => item.map Ident.bare)

def Stmt.braced : Stmt → Stmt
  | .block stmts => .block stmts
  | s => .block [s]

mutual

def Expr.bare : Expr → Expr
  | .ident id => .ident id.bare
  | .member base property => .member base.bare property
  | .index base sub => .index base.bare sub.bare
  | .call callee args => .call callee.bare (Expr.listBare args)
  | .unary op arg => .unary op arg.bare
  | .update op first target => .update op first target.bare
  | .binary op left right => .binary op left.bare right.bare
  | .logical op left right => .logical op left.bare right.bare
  | .conditional test consequent alternate =>
    .conditional test.bare consequent.bare alternate.bare
  | .assign op target value => .assign op target.bare value.bare
  | .array items => .array (Expr.listBare items)
  | .object props => .object (Expr.propBare props)
  | .func f => .func f.bare
  | .number x => .number x
  | .str s => .str s
  | .bool b => .bool b
  | .null => .null
  | .undefined => .undefined
  | .this => .this

def Expr.listBare : List Expr → List Expr
  | [] => []
  | e :: rest => e.bare :: Expr.listBare rest

def Expr.propBare : List (String × Expr) → List (String × Expr)
  | [] => []
  | (k, e) :: rest => (k, e.bare) :: Expr.propBare rest

def Expr.optBare : Option Expr → Option Expr
  | none => none
  | some e => some e.bare

def Func.bare : Func → Func
  | ⟨name, params, body, style, _⟩ =>
    ⟨name.map Ident.bare, params.map Ident.bare, body.bare, style, {}⟩

def FuncBody.bare : FuncBody → FuncBody
  | .block stmts => .block (Stmt.listBare stmts)
  | .expr e => .expr e.bare

def Stmt.bare : Stmt → Stmt
  | .decl ⟨kind, declarators⟩ => .decl ⟨kind, Declarator.listBare declarators⟩
  | .expr e => .expr e.bare
  | .branch test consequent alternate =>
    .branch test.bare consequent.bare.braced (Stmt.optBare alternate)
  | .forLoop init test update body =>
    .forLoop (ForInit.optBare init) (Expr.optBare test) (Expr.optBare update) body.bare.braced
  | .whileLoop test body => .whileLoop test.bare body.bare.braced
  | .block stmts => .block (Stmt.listBare stmts)
  | .ret arg => .ret (Expr.optBare arg)
  | .func f => .func f.bare
  | .breakLoop => .breakLoop
  | .continueLoop => .continueLoop
  | .empty => .empty

def Stmt.listBare : List Stmt → List Stmt
  | [] => []
  | s :: rest => s.bare :: Stmt.listBare rest

def Stmt.optBare : Option Stmt → Option Stmt
  | none => none
  | some s => some s.bare.braced

def ForInit.optBare : Option ForInit → Option ForInit
  | none => none
  | some (.decl ⟨kind, declarators⟩) => some (.decl ⟨kind, Declarator.listBare declarators⟩)
  | some (.expr e) => some (.expr e.bare)

def Declarator.listBare : List Declarator → List Declarator
  | [] => []
  | ⟨target, init, _⟩ :: rest =>
    ⟨target.bare, Expr.optBare init, {}⟩ :: Declarator.listBare rest

end

/-- A program up to positions and braces. -/
def Program.bare (p : Program) : Program :=
  ⟨p.root.bare⟩

/-! ## Shapes -/

/-- A shape that asks about no position and about no braces. -/
structure Shape.IgnoresPositions (S : Shape) : Prop where
  expr : ∀ e, S.expr e.bare ↔ S.expr e
  decls : ∀ ds, S.decls (Declarator.listBare ds) ↔ S.decls ds
  named : ∀ f : Func, S.named f.bare ↔ S.named f

theorem Pattern.boundNames_bare (p : Pattern) :
    p.bare.boundNames = p.boundNames.map Ident.bare := by
  cases p with
  | ident id => rfl
  | object props => simp [Pattern.bare, Pattern.boundNames]
  | array items =>
    show (items.map _).filterMap _ = (items.filterMap _).map _
    rw [List.filterMap_map, List.map_filterMap]
    rfl

theorem Pattern.all_bare (p : Pattern) : p.bare.All S ↔ p.All S := by
  unfold Pattern.All
  rw [Pattern.boundNames_bare]
  exact List.forall_mem_map

theorem Stmt.all_braced (s : Stmt) : s.braced.All S ↔ s.All S := by
  cases s with
  | block stmts => exact Iff.rfl
  | _ => exact and_iff_left trivial

section Shapes

variable {S : Shape} (H : S.IgnoresPositions)

include H

set_option linter.unusedSectionVars false -- used through other members

mutual

theorem Expr.all_bare (e : Expr) : e.bare.All S ↔ e.All S := by
  have he := H.expr e
  match e with
  | .member arg _ | .unary _ arg | .update _ _ arg => exact and_congr he arg.all_bare
  | .call callee args =>
    exact and_congr he (and_congr callee.all_bare (Expr.listAll_bare args))
  | .index left right | .binary _ left right | .logical _ left right | .assign _ left right =>
    exact and_congr he (and_congr left.all_bare right.all_bare)
  | .conditional test consequent alternate =>
    exact and_congr he (and_congr test.all_bare (and_congr consequent.all_bare alternate.all_bare))
  | .array items => exact and_congr he (Expr.listAll_bare items)
  | .object props => exact and_congr he (Expr.propAll_bare props)
  | .func f => exact and_congr he f.all_bare
  | .number _ | .str _ | .bool _ | .null | .undefined | .ident _ | .this => exact he

theorem Expr.listAll_bare (es : List Expr) :
    Expr.ListAll S (Expr.listBare es) ↔ Expr.ListAll S es := by
  match es with
  | [] => exact Iff.rfl
  | e :: rest => exact and_congr e.all_bare (Expr.listAll_bare rest)

theorem Expr.propAll_bare (props : List (String × Expr)) :
    Expr.PropAll S (Expr.propBare props) ↔ Expr.PropAll S props := by
  match props with
  | [] => exact Iff.rfl
  | (_, e) :: rest => exact and_congr e.all_bare (Expr.propAll_bare rest)

theorem Expr.optAll_bare (e? : Option Expr) :
    Expr.OptAll S (Expr.optBare e?) ↔ Expr.OptAll S e? := by
  match e? with
  | none => exact Iff.rfl
  | some e => exact e.all_bare

theorem Func.all_bare (f : Func) : f.bare.All S ↔ f.All S := by
  match f with
  | ⟨_, params, body, _, _⟩ => exact and_congr List.forall_mem_map body.all_bare

theorem FuncBody.all_bare (b : FuncBody) : b.bare.All S ↔ b.All S := by
  match b with
  | .block stmts => exact Stmt.listAll_bare stmts
  | .expr e => exact e.all_bare

theorem Stmt.all_bare (s : Stmt) : s.bare.All S ↔ s.All S := by
  match s with
  | .decl ⟨_, ds⟩ => exact and_congr (H.decls ds) (Declarator.listAll_bare ds)
  | .expr e => exact e.all_bare
  | .branch test consequent alternate =>
    exact and_congr test.all_bare (and_congr
      ((Stmt.all_braced _).trans consequent.all_bare) (Stmt.optAll_bare alternate))
  | .forLoop init test update body =>
    exact and_congr (ForInit.optAll_bare init) (and_congr (Expr.optAll_bare test)
      (and_congr (Expr.optAll_bare update) ((Stmt.all_braced _).trans body.all_bare)))
  | .whileLoop test body =>
    exact and_congr test.all_bare ((Stmt.all_braced _).trans body.all_bare)
  | .block stmts => exact Stmt.listAll_bare stmts
  | .ret arg => exact Expr.optAll_bare arg
  | .func ⟨name, params, body, style, pos⟩ =>
    refine and_congr (H.named _) (and_congr ?_ (Func.all_bare ⟨name, params, body, style, pos⟩))
    cases name <;> simp [Func.bare, Ident.bare]
  | .breakLoop | .continueLoop | .empty => exact Iff.rfl

theorem Stmt.listAll_bare (stmts : List Stmt) :
    Stmt.ListAll S (Stmt.listBare stmts) ↔ Stmt.ListAll S stmts := by
  match stmts with
  | [] => exact Iff.rfl
  | s :: rest => exact and_congr s.all_bare (Stmt.listAll_bare rest)

theorem Stmt.optAll_bare (s? : Option Stmt) :
    Stmt.OptAll S (Stmt.optBare s?) ↔ Stmt.OptAll S s? := by
  match s? with
  | none => exact Iff.rfl
  | some s => exact (Stmt.all_braced _).trans s.all_bare

theorem ForInit.optAll_bare (init : Option ForInit) :
    ForInit.OptAll S (ForInit.optBare init) ↔ ForInit.OptAll S init := by
  match init with
  | none => exact Iff.rfl
  | some (.decl ⟨_, ds⟩) => exact and_congr (H.decls ds) (Declarator.listAll_bare ds)
  | some (.expr e) => exact e.all_bare

theorem Declarator.listAll_bare (ds : List Declarator) :
    Declarator.ListAll S (Declarator.listBare ds) ↔ Declarator.ListAll S ds := by
  match ds with
  | [] => exact Iff.rfl
  | ⟨target, init, _⟩ :: rest =>
    exact and_congr target.all_bare
      (and_congr (Expr.optAll_bare init) (Declarator.listAll_bare rest))

end

/-- What reads like a script of a shape has the shape. -/
theorem Program.all_of_bare {p q : Program} (h : p.bare = q.bare)
    (hq : q.root.body.All S) : p.root.body.All S := by
  have hbody : p.root.body.bare = q.root.body.bare := by
    obtain ⟨⟨_, _, _, _, _⟩⟩ := p
    obtain ⟨⟨_, _, _, _, _⟩⟩ := q
    exact congrArg (fun p : Program => p.root.body) h
  rw [← FuncBody.all_bare H, hbody, FuncBody.all_bare H]
  exact hq

end Shapes

end BarScript

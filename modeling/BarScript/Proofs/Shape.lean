import BarScript.Script.Tree

/-!
# Shapes of trees

Many facts about scripts hold only if something is avoided everywhere: a kind
of assignment, a name. A `Shape` says what every expression of a tree, every
declaration and every name bound in it has to satisfy, and `All` asks it at
every depth, in the bodies of functions too. So a function that has the shape
still has it when it is called on a later bar.
-/

namespace BarScript

/-- What is asked of every expression and declaration of a tree, and of every
name that the tree binds. -/
structure Shape where
  /-- The expressions that may occur. -/
  expr : Expr → Prop
  /-- The names that may be declared, be parameters, or name functions. -/
  name : String → Prop
  /-- The declarators that may make up a declaration. -/
  decls : List Declarator → Prop := fun _ => True
  /-- The functions that may be statements. -/
  named : Func → Prop := fun _ => True

/-- The names that a pattern binds are allowed. -/
def Pattern.All (s : Shape) (p : Pattern) : Prop :=
  ∀ id ∈ p.boundNames, s.name id.name

mutual

/-- Every expression in an expression has the shape. -/
def Expr.All (s : Shape) : Expr → Prop
  | .member base property => s.expr (.member base property) ∧ base.All s
  | .index base sub => s.expr (.index base sub) ∧ base.All s ∧ sub.All s
  | .call callee args => s.expr (.call callee args) ∧ callee.All s ∧ Expr.ListAll s args
  | .unary op arg => s.expr (.unary op arg) ∧ arg.All s
  | .update op first target => s.expr (.update op first target) ∧ target.All s
  | .binary op left right => s.expr (.binary op left right) ∧ left.All s ∧ right.All s
  | .logical op left right => s.expr (.logical op left right) ∧ left.All s ∧ right.All s
  | .conditional test consequent alternate =>
    s.expr (.conditional test consequent alternate) ∧
      test.All s ∧ consequent.All s ∧ alternate.All s
  | .assign op target value => s.expr (.assign op target value) ∧ target.All s ∧ value.All s
  | .array items => s.expr (.array items) ∧ Expr.ListAll s items
  | .object props => s.expr (.object props) ∧ Expr.PropAll s props
  | .func f => s.expr (.func f) ∧ f.All s
  | .number x => s.expr (.number x)
  | .str t => s.expr (.str t)
  | .bool b => s.expr (.bool b)
  | .null => s.expr .null
  | .undefined => s.expr .undefined
  | .ident id => s.expr (.ident id)
  | .this => s.expr .this

def Expr.ListAll (s : Shape) : List Expr → Prop
  | [] => True
  | e :: rest => e.All s ∧ Expr.ListAll s rest

def Expr.PropAll (s : Shape) : List (String × Expr) → Prop
  | [] => True
  | (_, e) :: rest => e.All s ∧ Expr.PropAll s rest

def Expr.OptAll (s : Shape) : Option Expr → Prop
  | none => True
  | some e => e.All s

/-- Every expression in a function has the shape, and so have the names it binds
in its own frame. -/
def Func.All (s : Shape) : Func → Prop
  | ⟨_, params, body, _, _⟩ =>
    (∀ id ∈ params, s.name id.name) ∧ body.All s

def FuncBody.All (s : Shape) : FuncBody → Prop
  | .block stmts => Stmt.ListAll s stmts
  | .expr e => e.All s

def Stmt.All (s : Shape) : Stmt → Prop
  | .decl ⟨_, declarators⟩ => s.decls declarators ∧ Declarator.ListAll s declarators
  | .expr e => e.All s
  | .branch test consequent alternate =>
    test.All s ∧ consequent.All s ∧ Stmt.OptAll s alternate
  | .forLoop init test update body =>
    ForInit.OptAll s init ∧ Expr.OptAll s test ∧ Expr.OptAll s update ∧ body.All s
  | .whileLoop test body => test.All s ∧ body.All s
  | .block stmts => Stmt.ListAll s stmts
  | .ret arg => Expr.OptAll s arg
  | .func f => s.named f ∧ (∀ id ∈ f.name, s.name id.name) ∧ f.All s
  | .breakLoop | .continueLoop | .empty => True

def Stmt.ListAll (s : Shape) : List Stmt → Prop
  | [] => True
  | t :: rest => t.All s ∧ Stmt.ListAll s rest

def Stmt.OptAll (s : Shape) : Option Stmt → Prop
  | none => True
  | some t => t.All s

def ForInit.OptAll (s : Shape) : Option ForInit → Prop
  | none => True
  | some (.decl ⟨_, declarators⟩) => s.decls declarators ∧ Declarator.ListAll s declarators
  | some (.expr e) => e.All s

def Declarator.ListAll (s : Shape) : List Declarator → Prop
  | [] => True
  | ⟨target, init, _⟩ :: rest =>
    target.All s ∧ Expr.OptAll s init ∧ Declarator.ListAll s rest

end

/-- An expression of a shape satisfies what the shape asks of expressions. -/
theorem Expr.All.expr {e : Expr} (h : e.All s) : s.expr e := by
  cases e with
  | member | index | call | unary | update | binary | logical | conditional | assign | array
  | object | func => exact h.1
  | _ => exact h

theorem Func.All.body {f : Func} (h : f.All s) : f.body.All s := by
  obtain ⟨_, _, _, _, _⟩ := f
  exact h.2

def Shape.any : Shape where
  expr _ := True
  name _ := True

/-- What some shapes ask together implies what another one asks. -/
structure Shape.Entails {ι : Type} (s : ι → Shape) (u : Shape) : Prop where
  expr : ∀ e, (∀ i, (s i).expr e) → u.expr e
  name : ∀ x, (∀ i, (s i).name x) → u.name x
  decls : ∀ ds, (∀ i, (s i).decls ds) → u.decls ds
  named : ∀ f, (∀ i, (s i).named f) → u.named f

section Entails

variable {ι : Type} {s : ι → Shape} {u : Shape} (H : Shape.Entails s u)

include H

theorem Pattern.all_of {p : Pattern} (h : ∀ i, p.All (s i)) : p.All u :=
  fun id hid => H.name _ fun i => h i id hid

set_option linter.unusedSectionVars false -- used through other members

mutual

/-- An expression of all of the shapes has the shape that they entail. -/
theorem Expr.all_of {e : Expr} (h : ∀ i, e.All (s i)) : e.All u := by
  match e with
  | .member _ _ | .unary _ _ | .update _ _ _ =>
    exact ⟨H.expr _ fun i => (h i).1, Expr.all_of fun i => (h i).2⟩
  | .index _ _ | .binary _ _ _ | .logical _ _ _ | .assign _ _ _ =>
    exact ⟨H.expr _ fun i => (h i).1, Expr.all_of fun i => (h i).2.1,
      Expr.all_of fun i => (h i).2.2⟩
  | .call _ _ =>
    exact ⟨H.expr _ fun i => (h i).1, Expr.all_of fun i => (h i).2.1,
      Expr.listAll_of fun i => (h i).2.2⟩
  | .conditional _ _ _ =>
    exact ⟨H.expr _ fun i => (h i).1, Expr.all_of fun i => (h i).2.1,
      Expr.all_of fun i => (h i).2.2.1, Expr.all_of fun i => (h i).2.2.2⟩
  | .array _ => exact ⟨H.expr _ fun i => (h i).1, Expr.listAll_of fun i => (h i).2⟩
  | .object _ => exact ⟨H.expr _ fun i => (h i).1, Expr.propAll_of fun i => (h i).2⟩
  | .func _ => exact ⟨H.expr _ fun i => (h i).1, Func.all_of fun i => (h i).2⟩
  | .number _ | .str _ | .bool _ | .null | .undefined | .ident _ | .this => exact H.expr _ h

theorem Expr.listAll_of (h : ∀ i, Expr.ListAll (s i) es) : Expr.ListAll u es := by
  match es with
  | [] => trivial
  | _ :: _ => exact ⟨Expr.all_of fun i => (h i).1, Expr.listAll_of fun i => (h i).2⟩

theorem Expr.propAll_of (h : ∀ i, Expr.PropAll (s i) props) : Expr.PropAll u props := by
  match props with
  | [] => trivial
  | (_, _) :: _ => exact ⟨Expr.all_of fun i => (h i).1, Expr.propAll_of fun i => (h i).2⟩

theorem Expr.optAll_of (h : ∀ i, Expr.OptAll (s i) e?) : Expr.OptAll u e? := by
  match e? with
  | none => trivial
  | some _ => exact Expr.all_of h

theorem Func.all_of {f : Func} (h : ∀ i, f.All (s i)) : f.All u := by
  match f with
  | ⟨_, _, _, _, _⟩ =>
    exact ⟨fun id hid => H.name _ fun i => (h i).1 id hid, FuncBody.all_of fun i => (h i).2⟩

theorem FuncBody.all_of {b : FuncBody} (h : ∀ i, b.All (s i)) : b.All u := by
  match b with
  | .block _ => exact Stmt.listAll_of h
  | .expr _ => exact Expr.all_of h

theorem Stmt.all_of {t : Stmt} (h : ∀ i, t.All (s i)) : t.All u := by
  match t with
  | .decl ⟨_, _⟩ => exact ⟨H.decls _ fun i => (h i).1, Declarator.listAll_of fun i => (h i).2⟩
  | .expr _ => exact Expr.all_of h
  | .branch _ _ _ =>
    exact ⟨Expr.all_of fun i => (h i).1, Stmt.all_of fun i => (h i).2.1,
      Stmt.optAll_of fun i => (h i).2.2⟩
  | .forLoop _ _ _ _ =>
    exact ⟨ForInit.optAll_of fun i => (h i).1, Expr.optAll_of fun i => (h i).2.1,
      Expr.optAll_of fun i => (h i).2.2.1, Stmt.all_of fun i => (h i).2.2.2⟩
  | .whileLoop _ _ => exact ⟨Expr.all_of fun i => (h i).1, Stmt.all_of fun i => (h i).2⟩
  | .block _ => exact Stmt.listAll_of h
  | .ret _ => exact Expr.optAll_of h
  | .func _ =>
    exact ⟨H.named _ fun i => (h i).1, fun id hid => H.name _ fun i => (h i).2.1 id hid,
      Func.all_of fun i => (h i).2.2⟩
  | .breakLoop | .continueLoop | .empty => trivial

theorem Stmt.listAll_of (h : ∀ i, Stmt.ListAll (s i) stmts) : Stmt.ListAll u stmts := by
  match stmts with
  | [] => trivial
  | _ :: _ => exact ⟨Stmt.all_of fun i => (h i).1, Stmt.listAll_of fun i => (h i).2⟩

theorem Stmt.optAll_of (h : ∀ i, Stmt.OptAll (s i) t?) : Stmt.OptAll u t? := by
  match t? with
  | none => trivial
  | some _ => exact Stmt.all_of h

theorem ForInit.optAll_of (h : ∀ i, ForInit.OptAll (s i) init) : ForInit.OptAll u init := by
  match init with
  | none => trivial
  | some (.decl ⟨_, _⟩) =>
    exact ⟨H.decls _ fun i => (h i).1, Declarator.listAll_of fun i => (h i).2⟩
  | some (.expr _) => exact Expr.all_of h

theorem Declarator.listAll_of (h : ∀ i, Declarator.ListAll (s i) ds) : Declarator.ListAll u ds := by
  match ds with
  | [] => trivial
  | ⟨_, _, _⟩ :: _ =>
    exact ⟨Pattern.all_of H fun i => (h i).1, Expr.optAll_of fun i => (h i).2.1,
      Declarator.listAll_of fun i => (h i).2.2⟩

end

end Entails

theorem Shape.entails_any : Shape.Entails Empty.elim .any :=
  ⟨fun _ _ => trivial, fun _ _ => trivial, fun _ _ => trivial, fun _ _ => trivial⟩

theorem Func.all_any (f : Func) : f.All .any :=
  Func.all_of Shape.entails_any nofun

theorem FuncBody.all_any (b : FuncBody) : b.All .any :=
  FuncBody.all_of Shape.entails_any nofun

/-- What two shapes ask implies what a third one asks. -/
structure Shape.Meet (s t u : Shape) : Prop where
  expr : ∀ e, s.expr e → t.expr e → u.expr e
  name : ∀ x, s.name x → t.name x → u.name x
  decls : ∀ ds, s.decls ds → t.decls ds → u.decls ds
  named : ∀ f, s.named f → t.named f → u.named f

section Meet

variable {s t u : Shape} (H : s.Meet t u)

include H

theorem Shape.Meet.entails : Shape.Entails (fun first => bif first then s else t) u :=
  ⟨fun e h => H.expr e (h true) (h false), fun x h => H.name x (h true) (h false),
    fun ds h => H.decls ds (h true) (h false), fun f h => H.named f (h true) (h false)⟩

theorem Expr.All.meet {e : Expr} (h : e.All s) (h' : e.All t) : e.All u :=
  Expr.all_of H.entails (Bool.rec h' h)

theorem Func.All.meet {f : Func} (h : f.All s) (h' : f.All t) : f.All u :=
  Func.all_of H.entails (Bool.rec h' h)

end Meet

theorem Expr.listAll_iff : Expr.ListAll s es ↔ ∀ e ∈ es, e.All s := by
  induction es with
  | nil => simp [Expr.ListAll]
  | cons e rest ih => simp [Expr.ListAll, ih]

theorem Expr.listAll_append : Expr.ListAll s (l ++ l') ↔ Expr.ListAll s l ∧ Expr.ListAll s l' := by
  simp only [Expr.listAll_iff, List.forall_mem_append]

theorem Expr.propAll_iff : Expr.PropAll s props ↔ ∀ p ∈ props, p.2.All s := by
  induction props with
  | nil => simp [Expr.PropAll]
  | cons p rest ih => simp [Expr.PropAll, ih]

theorem Stmt.listAll_iff : Stmt.ListAll s l ↔ ∀ t ∈ l, t.All s := by
  induction l with
  | nil => simp [Stmt.ListAll]
  | cons t rest ih => simp [Stmt.ListAll, ih]

theorem Declarator.listAll_iff :
    Declarator.ListAll s ds ↔ ∀ d ∈ ds, d.target.All s ∧ Expr.OptAll s d.init := by
  induction ds with
  | nil => simp [Declarator.ListAll]
  | cons d rest ih =>
    obtain ⟨target, init, pos⟩ := d
    simp [Declarator.ListAll, ih, and_assoc]

theorem Stmt.listAll_append : Stmt.ListAll s (l ++ l') ↔ Stmt.ListAll s l ∧ Stmt.ListAll s l' := by
  simp only [Stmt.listAll_iff, List.forall_mem_append]

/-! ## Checking a shape -/

/-- Two facts that can be checked one after the other. -/
@[reducible] def decideBoth {a b : Prop} (ha : Decidable a) (hb : Decidable b) :
    Decidable (a ∧ b) :=
  inferInstance

section Decide

variable (s : Shape) [DecidablePred s.expr] [DecidablePred s.name] [DecidablePred s.decls]
  [DecidablePred s.named]

instance Pattern.decidableAll (p : Pattern) : Decidable (p.All s) :=
  inferInstanceAs (Decidable (∀ id ∈ p.boundNames, s.name id.name))

mutual

def Expr.decidableAll : (e : Expr) → Decidable (e.All s)
  | .member base _ => decideBoth inferInstance base.decidableAll
  | .index base sub => decideBoth inferInstance (decideBoth base.decidableAll sub.decidableAll)
  | .call callee args => decideBoth inferInstance
    (decideBoth callee.decidableAll (Expr.decidableListAll args))
  | .unary _ arg => decideBoth inferInstance arg.decidableAll
  | .update _ _ target => decideBoth inferInstance target.decidableAll
  | .binary _ left right => decideBoth inferInstance
    (decideBoth left.decidableAll right.decidableAll)
  | .logical _ left right => decideBoth inferInstance
    (decideBoth left.decidableAll right.decidableAll)
  | .conditional test consequent alternate => decideBoth inferInstance
    (decideBoth test.decidableAll (decideBoth consequent.decidableAll alternate.decidableAll))
  | .assign _ target value => decideBoth inferInstance
    (decideBoth target.decidableAll value.decidableAll)
  | .array items => decideBoth inferInstance (Expr.decidableListAll items)
  | .object props => decideBoth inferInstance (Expr.decidablePropAll props)
  | .func f => decideBoth inferInstance f.decidableAll
  | .number x => inferInstanceAs (Decidable (s.expr (.number x)))
  | .str t => inferInstanceAs (Decidable (s.expr (.str t)))
  | .bool b => inferInstanceAs (Decidable (s.expr (.bool b)))
  | .null => inferInstanceAs (Decidable (s.expr .null))
  | .undefined => inferInstanceAs (Decidable (s.expr .undefined))
  | .ident id => inferInstanceAs (Decidable (s.expr (.ident id)))
  | .this => inferInstanceAs (Decidable (s.expr .this))

def Expr.decidableListAll : (es : List Expr) → Decidable (Expr.ListAll s es)
  | [] => isTrue trivial
  | e :: rest => decideBoth e.decidableAll (Expr.decidableListAll rest)

def Expr.decidablePropAll : (props : List (String × Expr)) → Decidable (Expr.PropAll s props)
  | [] => isTrue trivial
  | (_, e) :: rest => decideBoth e.decidableAll (Expr.decidablePropAll rest)

def Expr.decidableOptAll : (e? : Option Expr) → Decidable (Expr.OptAll s e?)
  | none => isTrue trivial
  | some e => e.decidableAll

def Func.decidableAll : (f : Func) → Decidable (f.All s)
  | ⟨_, _, body, _, _⟩ => decideBoth inferInstance body.decidableAll

def FuncBody.decidableAll : (b : FuncBody) → Decidable (b.All s)
  | .block stmts => Stmt.decidableListAll stmts
  | .expr e => e.decidableAll

def Stmt.decidableAll : (t : Stmt) → Decidable (t.All s)
  | .decl ⟨_, ds⟩ => decideBoth inferInstance (Declarator.decidableListAll ds)
  | .expr e => e.decidableAll
  | .branch test consequent alternate =>
    decideBoth test.decidableAll
      (decideBoth consequent.decidableAll (Stmt.decidableOptAll alternate))
  | .forLoop init test update body =>
    decideBoth (ForInit.decidableOptAll init) (decideBoth (Expr.decidableOptAll test)
      (decideBoth (Expr.decidableOptAll update) body.decidableAll))
  | .whileLoop test body => decideBoth test.decidableAll body.decidableAll
  | .block stmts => Stmt.decidableListAll stmts
  | .ret arg => Expr.decidableOptAll arg
  | .func f => decideBoth inferInstance (decideBoth inferInstance f.decidableAll)
  | .breakLoop | .continueLoop | .empty => isTrue trivial

def Stmt.decidableListAll : (stmts : List Stmt) → Decidable (Stmt.ListAll s stmts)
  | [] => isTrue trivial
  | t :: rest => decideBoth t.decidableAll (Stmt.decidableListAll rest)

def Stmt.decidableOptAll : (t? : Option Stmt) → Decidable (Stmt.OptAll s t?)
  | none => isTrue trivial
  | some t => t.decidableAll

def ForInit.decidableOptAll : (init : Option ForInit) → Decidable (ForInit.OptAll s init)
  | none => isTrue trivial
  | some (.decl ⟨_, ds⟩) => decideBoth inferInstance (Declarator.decidableListAll ds)
  | some (.expr e) => e.decidableAll

def Declarator.decidableListAll : (ds : List Declarator) → Decidable (Declarator.ListAll s ds)
  | [] => isTrue trivial
  | ⟨target, init, _⟩ :: rest =>
    decideBoth (Pattern.decidableAll s target)
      (decideBoth (Expr.decidableOptAll init) (Declarator.decidableListAll rest))

end

instance : DecidablePred (Expr.All s) := Expr.decidableAll s

instance : DecidablePred (FuncBody.All s) := FuncBody.decidableAll s

instance : DecidablePred (Func.All s) := Func.decidableAll s

end Decide

end BarScript

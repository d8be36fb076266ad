import BarScript.Compile.Artifact
import BarScript.Proofs.Passes.Slotted

/-!
# Scripts without equality operators keep shapes

The last pass puts calls in the place of equality operators and leaves all else
alone, so it keeps a shape that allows calls.
-/

namespace BarScript

/-- What a shape allows if scripts of the shape keep it without equality
operators. -/
structure Equality.Keeps (root : String) (S : Shape) : Prop where
  plain : ∀ {e : Expr}, e.IsPlain → (∀ callee args, e ≠ .call callee args) →
    (∀ op left right, e ≠ .binary op left right) → S.expr e
  call : ∀ {callee args}, S.expr (.call callee args) →
    S.expr (.call (callee.tolerant root) (Expr.listTolerant root args))
  binary : ∀ {op left right}, S.expr (.binary op left right) →
    S.expr (.binary op (left.tolerant root) (right.tolerant root))
  member : ∀ {base base' property}, S.expr (.member base property) →
    S.expr (.member base' property) := by exact fun _ => trivial
  /-- The comparison that stands for an equality. -/
  equality : ∀ {op left right}, S.expr (.binary op left right) →
    S.expr (Equality.call root (left.tolerant root) (right.tolerant root))
  context : S.expr (.named root) := by exact trivial
  field : ∀ {x} (base), x ∈ ["math", "__eq"] → S.expr (.member base x) := by
    exact fun _ _ => trivial
  assign : ∀ {op t v}, S.expr (.assign op t v) →
    S.expr (.assign op (t.tolerant root) (v.tolerant root))
  update : ∀ {op first t}, S.expr (.update op first t) → S.expr (.update op first (t.tolerant root))
  func : ∀ {f}, S.expr (.func f) → S.expr (.func (f.tolerant root)) := by exact fun _ => trivial
  named : ∀ {f : Func}, S.named f → S.named (f.tolerant root) := by exact fun _ => trivial
  decls : S.Redeclares S := by exact fun _ _ _ _ _ => trivial

/-- Only the body of a function changes, and it stays of its kind. -/
theorem Func.tolerant_eq (root : String) (f : Func) :
    ∃ body : FuncBody, f.tolerant root = { f with body } ∧ body.isBlock = f.body.isBlock := by
  obtain ⟨_, _, body, _, _⟩ := f
  cases body with
  | block | expr => exact ⟨_, rfl, rfl⟩

theorem Expr.isSome_optTolerant (root : String) (e? : Option Expr) :
    (Expr.optTolerant root e?).isSome = e?.isSome := by
  cases e? <;> rfl

theorem Declarator.listTolerant_eq_map (root : String) (ds : List Declarator) :
    Declarator.listTolerant root ds =
      ds.map fun d => { d with init := Expr.optTolerant root d.init } := by
  induction ds with
  | nil => rfl
  | cons d rest ih =>
    obtain ⟨target, init, pos⟩ := d
    rw [List.map_cons, ← ih]
    rfl

theorem Shape.Redeclares.listTolerant {S : Shape} (h : S.Redeclares S) (root : String)
    (hds : S.decls ds) : S.decls (Declarator.listTolerant root ds) := by
  rw [Declarator.listTolerant_eq_map]
  refine h hds (fun hne => ?_) fun d hd => ?_
  · rw [ne_eq, List.map_eq_nil_iff]
    exact hne
  · obtain ⟨d', hd', rfl⟩ := List.mem_map.1 hd
    exact ⟨d', hd', rfl, Expr.isSome_optTolerant root d'.init, rfl⟩

section Trees

variable {root : String} {S : Shape} (H : Equality.Keeps root S)

include H

-- Declarators use `H` only through their initial values, which the linter does not see.
set_option linter.unusedSectionVars false

mutual

theorem Expr.tolerant_all (e : Expr) (he : e.All S) : (e.tolerant root).All S := by
  match e with
  | .binary op left right =>
    have hl := left.tolerant_all he.2.1
    have hr := right.tolerant_all he.2.2
    unfold Expr.tolerant
    split
    · exact ⟨H.equality he.1, ⟨H.field _ (by decide), H.field _ (by decide), H.context⟩, hl, hr,
        trivial⟩
    · exact ⟨H.binary he.1, hl, hr⟩
  | .member base _ => exact ⟨H.member he.1, base.tolerant_all he.2⟩
  | .index base sub | .logical _ base sub =>
    exact ⟨H.plain trivial nofun nofun, base.tolerant_all he.2.1, sub.tolerant_all he.2.2⟩
  | .call callee args =>
    exact ⟨H.call he.1, callee.tolerant_all he.2.1, Expr.listTolerant_all args he.2.2⟩
  | .unary _ arg => exact ⟨H.plain trivial nofun nofun, arg.tolerant_all he.2⟩
  | .update _ _ target => exact ⟨H.update he.1, target.tolerant_all he.2⟩
  | .conditional test consequent alternate =>
    exact ⟨H.plain trivial nofun nofun, test.tolerant_all he.2.1, consequent.tolerant_all he.2.2.1,
      alternate.tolerant_all he.2.2.2⟩
  | .assign _ target value =>
    exact ⟨H.assign he.1, target.tolerant_all he.2.1, value.tolerant_all he.2.2⟩
  | .array items => exact ⟨H.plain trivial nofun nofun, Expr.listTolerant_all items he.2⟩
  | .object props => exact ⟨H.plain trivial nofun nofun, Expr.propTolerant_all props he.2⟩
  | .func f => exact ⟨H.func he.1, f.tolerant_all he.2⟩
  | .number _ | .str _ | .bool _ | .null | .undefined | .ident _ | .this => exact he

theorem Expr.listTolerant_all (es : List Expr)
    (he : Expr.ListAll S es) : Expr.ListAll S (Expr.listTolerant root es) := by
  match es with
  | [] => exact trivial
  | e :: rest => exact ⟨e.tolerant_all he.1, Expr.listTolerant_all rest he.2⟩

theorem Expr.propTolerant_all (props : List (String × Expr))
    (he : Expr.PropAll S props) : Expr.PropAll S (Expr.propTolerant root props) := by
  match props with
  | [] => exact trivial
  | (_, e) :: rest => exact ⟨e.tolerant_all he.1, Expr.propTolerant_all rest he.2⟩

theorem Expr.optTolerant_all (e? : Option Expr)
    (he : Expr.OptAll S e?) : Expr.OptAll S (Expr.optTolerant root e?) := by
  match e? with
  | none => exact trivial
  | some e => exact e.tolerant_all he

theorem Func.tolerant_all (f : Func) (hf : f.All S) : (f.tolerant root).All S := by
  match f with
  | ⟨_, _, .block stmts, _, _⟩ => exact ⟨hf.1, Stmt.listTolerant_all stmts hf.2⟩
  | ⟨_, _, .expr e, _, _⟩ => exact ⟨hf.1, e.tolerant_all hf.2⟩

theorem Stmt.tolerant_all (t : Stmt) (ht : t.All S) : (t.tolerant root).All S := by
  match t with
  | .decl ⟨_, ds⟩ => exact ⟨H.decls.listTolerant root ht.1, Declarator.listTolerant_all ds ht.2⟩
  | .expr e => exact e.tolerant_all ht
  | .branch test consequent none =>
    exact ⟨test.tolerant_all ht.1, consequent.tolerant_all ht.2.1, trivial⟩
  | .branch test consequent (some alternate) =>
    exact ⟨test.tolerant_all ht.1, consequent.tolerant_all ht.2.1, alternate.tolerant_all ht.2.2⟩
  | .forLoop none test update body =>
    exact ⟨trivial, Expr.optTolerant_all test ht.2.1, Expr.optTolerant_all update ht.2.2.1,
      body.tolerant_all ht.2.2.2⟩
  | .forLoop (some (.decl ⟨_, ds⟩)) test update body =>
    exact ⟨⟨H.decls.listTolerant root ht.1.1, Declarator.listTolerant_all ds ht.1.2⟩,
      Expr.optTolerant_all test ht.2.1, Expr.optTolerant_all update ht.2.2.1,
      body.tolerant_all ht.2.2.2⟩
  | .forLoop (some (.expr e)) test update body =>
    exact ⟨e.tolerant_all ht.1, Expr.optTolerant_all test ht.2.1,
      Expr.optTolerant_all update ht.2.2.1, body.tolerant_all ht.2.2.2⟩
  | .whileLoop test body => exact ⟨test.tolerant_all ht.1, body.tolerant_all ht.2⟩
  | .block stmts => exact Stmt.listTolerant_all stmts ht
  | .ret arg => exact Expr.optTolerant_all arg ht
  | .func f =>
    refine ⟨H.named ht.1, ?_, f.tolerant_all ht.2.2⟩
    obtain ⟨body, hbody, -⟩ := Func.tolerant_eq root f
    rw [hbody]
    exact ht.2.1
  | .breakLoop | .continueLoop | .empty => exact trivial

theorem Stmt.listTolerant_all (stmts : List Stmt)
    (hs : Stmt.ListAll S stmts) : Stmt.ListAll S (Stmt.listTolerant root stmts) := by
  match stmts with
  | [] => exact trivial
  | t :: rest => exact ⟨t.tolerant_all hs.1, Stmt.listTolerant_all rest hs.2⟩

theorem Declarator.listTolerant_all (ds : List Declarator)
    (hd : Declarator.ListAll S ds) : Declarator.ListAll S (Declarator.listTolerant root ds) := by
  match ds with
  | [] => exact trivial
  | ⟨_, init, _⟩ :: rest =>
    exact ⟨hd.1, Expr.optTolerant_all init hd.2.1, Declarator.listTolerant_all rest hd.2.2⟩

end

end Trees

/-- The script without equality operators has the shape; only its body
changes. -/
theorem Program.tolerant_all {p : Program} {root : String} {S : Shape}
    (H : Equality.Keeps root S) (hp : p.root.body.All S) :
    ∃ body : FuncBody, (p.tolerant root).1 = ⟨{ p.root with body }⟩ ∧ body.All S ∧
      body.isBlock = p.root.body.isBlock := by
  obtain ⟨⟨name, params, body, style, pos⟩⟩ := p
  unfold Program.tolerant
  split
  · exact ⟨body, rfl, hp, rfl⟩
  · cases body with
    | block stmts => exact ⟨_, rfl, Stmt.listTolerant_all H stmts hp, rfl⟩
    | expr e => exact ⟨_, rfl, e.tolerant_all H hp, rfl⟩

end BarScript

import BarScript.Proofs.Passes.Slotted

/-!
# Flat scripts

A flat script computes with its own names and with what it reads off the data of
the context: it has no functions, no calls, no fields and no elements, the bodies
of its branches and loops are blocks, and no name is declared twice. This is where
slots stand in for plain locals one by one, so that a flat script can be compared
with its slotted form.

The normal form of a flat script is the script itself, since it has no tuples to
take apart and no functions to hoist.
-/

namespace BarScript

open Bool Declarator

open Slotted (isNumberName)

/-! ## The class -/

/-- Whether an expression is a name other than that of the context. -/
def Expr.isFlatName (root : String) : Expr → Bool
  | .ident id => id.name != root
  | _ => false

mutual

/-- Whether an expression computes with names and literals only. -/
def Expr.isFlat (root : String) : Expr → Bool
  | .number _ | .str _ | .bool _ | .null | .undefined => true
  | .ident id => id.name != root
  | .unary _ arg => arg.isFlat root
  | .update _ _ target => target.isFlatName root
  | .binary _ left right => left.isFlat root && right.isFlat root
  | .logical _ left right => left.isFlat root && right.isFlat root
  | .conditional test consequent alternate =>
    test.isFlat root && consequent.isFlat root && alternate.isFlat root
  | .assign _ target value => target.isFlatName root && value.isFlat root
  | .array items => Expr.listFlat root items
  | .object props => Expr.propFlat root props
  | .this | .member _ _ | .index _ _ | .call _ _ | .func _ => false

def Expr.listFlat (root : String) : List Expr → Bool
  | [] => true
  | e :: rest => e.isFlat root && Expr.listFlat root rest

def Expr.propFlat (root : String) : List (String × Expr) → Bool
  | [] => true
  | (_, e) :: rest => e.isFlat root && Expr.propFlat root rest

end

def Expr.optFlat (root : String) : Option Expr → Bool
  | none => true
  | some e => e.isFlat root

/-- Whether an expression is the data of the context. -/
def Expr.isData (root : String) : Expr → Bool
  | .member (.ident id) "data" => id.name == root
  | _ => false

/-- Whether a declarator gives one name a flat value, or reads names off the data. -/
def Declarator.isFlat (root : String) : Declarator → Bool
  | ⟨.ident _, init, _⟩ => Expr.optFlat root init
  | ⟨.object _, some init, _⟩ => init.isData root
  | _ => false

def ForInit.optFlat (root : String) : Option ForInit → Bool
  | some (.decl ⟨_, [⟨.ident _, some init, _⟩]⟩) => init.isFlat root
  | _ => false

mutual

/-- Whether a statement is one of a flat script. -/
def Stmt.isFlat (root : String) : Stmt → Bool
  | .decl ⟨_, declarators⟩ => !declarators.isEmpty && declarators.all (Declarator.isFlat root)
  | .expr e => e.isFlat root
  | .branch test consequent alternate =>
    test.isFlat root && consequent.isFlatBlock root && Stmt.optFlatBlock root alternate
  | .forLoop init test update body =>
    ForInit.optFlat root init && Expr.optFlat root test && Expr.optFlat root update &&
      body.isFlatBlock root
  | .whileLoop test body => test.isFlat root && body.isFlatBlock root
  | .ret arg => Expr.optFlat root arg
  | .breakLoop | .continueLoop => true
  | .block _ | .func _ | .empty => false

def Stmt.isFlatBlock (root : String) : Stmt → Bool
  | .block stmts => Stmt.listFlat root stmts
  | _ => false

def Stmt.optFlatBlock (root : String) : Option Stmt → Bool
  | none => true
  | some s => s.isFlatBlock root

def Stmt.listFlat (root : String) : List Stmt → Bool
  | [] => true
  | s :: rest => s.isFlat root && Stmt.listFlat root rest

end

def Declarator.listDeclared (declarators : List Declarator) : List String :=
  declarators.flatMap fun d => d.target.names

mutual

/-- The names that a statement declares, at any depth. -/
def Stmt.declared : Stmt → List String
  | .decl ⟨_, declarators⟩ => Declarator.listDeclared declarators
  | .branch _ consequent alternate => consequent.declared ++ Stmt.optDeclared alternate
  | .forLoop (some (.decl ⟨_, declarators⟩)) _ _ body =>
    Declarator.listDeclared declarators ++ body.declared
  | .forLoop _ _ _ body => body.declared
  | .whileLoop _ body => body.declared
  | .block stmts => Stmt.listDeclared stmts
  | .expr _ | .ret _ | .breakLoop | .continueLoop | .func _ | .empty => []

def Stmt.listDeclared : List Stmt → List String
  | [] => []
  | s :: rest => s.declared ++ Stmt.listDeclared rest

def Stmt.optDeclared : Option Stmt → List String
  | none => []
  | some s => s.declared

end

/-- Whether a script is flat: a function of the context whose body has flat
statements, and whose names are declared once and are neither the context nor a
number. -/
def Program.isFlat (p : Program) : Bool :=
  match p.root.params, p.root.body with
  | [id], .block stmts =>
    Stmt.listFlat id.name stmts && decide (Stmt.listDeclared stmts).Nodup &&
      (Stmt.listDeclared stmts).all fun x => x != id.name && !isNumberName x
  | _, _ => false

/-! ## Normal forms -/

section Normal

open NormalForm

variable {root : String} {α β : Type} {x : Pass α} {f : α → Pass β}

/-- Whether a pass gives one thing, whatever it notes on the way. -/
def Returns (x : Pass α) (a : α) : Prop :=
  ∀ p, (x p).1 = a

theorem returns_pure (a : α) : Returns (pure a) a := fun _ => rfl

theorem Returns.bind (hx : Returns x a) (hf : Returns (f a) b) : Returns (x >>= f) b := fun p => by
  show (f (x p).1 (x p).2).1 = b
  rw [hx p]
  exact hf _

theorem Returns.map {g : α → β} (hx : Returns x a) : Returns (g <$> x) (g a) :=
  fun p => congrArg g (hx p)

mutual

/-- **Flat expressions are in normal form.** -/
theorem Expr.normal_flat (e : Expr) (he : e.isFlat root = true) : Returns (e.normal root) e := by
  match e with
  | .number _ | .str _ | .bool _ | .null | .undefined | .ident _ => exact returns_pure _
  | .unary op arg => exact (arg.normal_flat he).bind (returns_pure _)
  | .update op first (.ident id) => exact returns_pure _
  | .binary op left right | .logical op left right =>
    obtain ⟨hl, hr⟩ := and_eq_true_iff.1 he
    exact (left.normal_flat hl).bind ((right.normal_flat hr).bind (returns_pure _))
  | .conditional test consequent alternate =>
    obtain ⟨htc, ha⟩ := and_eq_true_iff.1 he
    obtain ⟨ht, hc⟩ := and_eq_true_iff.1 htc
    refine (test.normal_flat ht).bind ((consequent.normal_flat hc).bind ?_)
    exact (alternate.normal_flat ha).bind (returns_pure _)
  | .assign op (.ident id) value =>
    have hvalue := value.normal_flat (and_eq_true_iff.1 he).2
    exact (returns_pure (Expr.ident id)).bind (hvalue.bind (returns_pure _))
  | .array items => exact (Expr.listNormal_flat items he).bind (returns_pure _)
  | .object props => exact (Expr.propNormal_flat props he).bind (returns_pure _)

theorem Expr.listNormal_flat (es : List Expr) (he : Expr.listFlat root es = true) :
    Returns (Expr.listNormal root es) es := by
  match es with
  | [] => exact returns_pure _
  | e :: rest =>
    obtain ⟨he, hrest⟩ := and_eq_true_iff.1 he
    exact (e.normal_flat he).bind ((Expr.listNormal_flat rest hrest).bind (returns_pure _))

theorem Expr.propNormal_flat (props : List (String × Expr)) (he : Expr.propFlat root props = true) :
    Returns (Expr.propNormal root props) props := by
  match props with
  | [] => exact returns_pure _
  | (k, e) :: rest =>
    obtain ⟨he, hrest⟩ := and_eq_true_iff.1 he
    exact (e.normal_flat he).bind ((Expr.propNormal_flat rest hrest).bind (returns_pure _))

end

theorem Expr.optNormal_flat (e? : Option Expr) (he : Expr.optFlat root e? = true) :
    Returns (Expr.optNormal root e?) e? := by
  cases e? with
  | none => exact returns_pure _
  | some e => exact (e.normal_flat he).bind (returns_pure _)

theorem Expr.isContextRead_of_isFlat {e : Expr} (he : e.isFlat root = true) :
    e.isContextRead root = false := by
  match e with
  | .ident id => exact beq_false_of_ne (bne_iff_ne.1 he)
  | .number _ | .str _ | .bool _ | .null | .undefined | .unary _ _ | .update _ _ _
  | .binary _ _ _ | .logical _ _ _ | .conditional _ _ _ | .assign _ _ _ | .array _
  | .object _ => rfl

theorem Expr.isContextRead_of_isData {e : Expr} (he : e.isData root = true) :
    e.isContextRead root = true := by
  unfold Expr.isData at he
  split at he
  · exact he
  · cases he

theorem Declarator.pieces_flat (top : Bool) (kind : DeclKind) {ds : List Declarator}
    (hd : ∀ d ∈ ds, d.isFlat root = true) :
    Returns (pieces root top kind ds) (ds.map .kept) := by
  induction ds with
  | nil => exact returns_pure _
  | cons d rest ih =>
    obtain ⟨hd, hrest⟩ := List.forall_mem_cons.1 hd
    have hpieces : Returns (do return Piece.kept d :: (← pieces root top kind rest))
        ((d :: rest).map .kept) := (ih hrest).bind (returns_pure _)
    match d with
    | ⟨.ident id, none, pos⟩ => exact hpieces
    | ⟨.ident id, some init, pos⟩ =>
      rw [pieces_cons]
      refine Returns.bind ?_ hpieces
      unfold piece
      rw [Expr.isContextRead_of_isFlat hd]
      match init with
      | .number _ | .str _ | .bool _ | .null | .undefined | .ident _ | .unary _ _ | .update _ _ _
      | .binary _ _ _ | .logical _ _ _ | .conditional _ _ _ | .assign _ _ _ | .array _
      | .object _ => exact (Expr.normal_flat _ hd).bind (returns_pure _)
    | ⟨.object props, some init, pos⟩ =>
      rw [pieces_cons]
      refine Returns.bind ?_ hpieces
      unfold piece
      rw [Expr.isContextRead_of_isData hd]
      exact Returns.bind (x := noteContextRead top _) (fun _ => rfl) (returns_pure _)

theorem gather_kept (kind : DeclKind) (ds pending : List Declarator) :
    gather kind pending (ds.map .kept) = flush kind (pending ++ ds) := by
  induction ds generalizing pending with
  | nil => rw [List.append_nil]; rfl
  | cons d rest ih =>
    rw [List.map_cons, gather, ih, List.append_assoc]
    rfl

mutual

/-- **Flat statements are in normal form.** -/
theorem Stmt.normal_flat (top : Bool) (t : Stmt) (ht : t.isFlat root = true) :
    Returns (t.normal root top) [t] := by
  match t with
  | .decl ⟨kind, ds⟩ =>
    obtain ⟨hne, hd⟩ := and_eq_true_iff.1 ht
    refine (pieces_flat top kind (List.all_eq_true.1 hd)).bind ?_
    rw [gather_kept, List.nil_append]
    cases ds with
    | nil => cases hne
    | cons d rest => exact returns_pure _
  | .expr e => exact (e.normal_flat ht).bind (returns_pure _)
  | .branch test consequent none =>
    obtain ⟨htc, -⟩ := and_eq_true_iff.1 ht
    obtain ⟨ht, hc⟩ := and_eq_true_iff.1 htc
    refine (test.normal_flat ht).bind ((Stmt.normal_flatBlock false consequent hc).bind ?_)
    exact returns_pure _
  | .branch test consequent (some alternate) =>
    obtain ⟨htc, ha⟩ := and_eq_true_iff.1 ht
    obtain ⟨ht, hc⟩ := and_eq_true_iff.1 htc
    refine (test.normal_flat ht).bind ((Stmt.normal_flatBlock false consequent hc).bind ?_)
    exact (Returns.map (Stmt.normal_flatBlock false alternate ha)).bind (returns_pure _)
  | .forLoop (some (.decl ⟨kind, [⟨.ident id, some init, pos⟩]⟩)) test update body =>
    obtain ⟨hitu, hb⟩ := and_eq_true_iff.1 ht
    obtain ⟨hit, hu⟩ := and_eq_true_iff.1 hitu
    obtain ⟨hi, ht⟩ := and_eq_true_iff.1 hit
    have hheader : Returns (headerNormal root [⟨.ident id, some init, pos⟩])
        [⟨.ident id, some init, pos⟩] :=
      (Expr.optNormal_flat (some init) hi).bind
        ((returns_pure ([] : List Declarator)).bind (returns_pure _))
    refine hheader.map.bind ((Expr.optNormal_flat test ht).bind ?_)
    refine (Expr.optNormal_flat update hu).bind ?_
    exact (Stmt.normal_flatBlock false body hb).bind (returns_pure _)
  | .whileLoop test body =>
    obtain ⟨ht, hb⟩ := and_eq_true_iff.1 ht
    exact (test.normal_flat ht).bind ((Stmt.normal_flatBlock false body hb).bind (returns_pure _))
  | .ret arg => exact (Expr.optNormal_flat arg ht).bind (returns_pure _)
  | .breakLoop | .continueLoop => exact returns_pure _

theorem Stmt.normal_flatBlock (top : Bool) (t : Stmt) (ht : t.isFlatBlock root = true) :
    Returns (t.normal root top) [t] := by
  match t with
  | .block stmts => exact (Stmt.listNormal_flat top stmts ht).bind (returns_pure _)

theorem Stmt.listNormal_flat (top : Bool) (stmts : List Stmt)
    (hs : Stmt.listFlat root stmts = true) : Returns (Stmt.listNormal root top stmts) stmts := by
  match stmts with
  | [] => exact returns_pure _
  | t :: rest =>
    obtain ⟨ht, hrest⟩ := and_eq_true_iff.1 hs
    exact (Stmt.normal_flat top t ht).bind
      ((Stmt.listNormal_flat top rest hrest).bind (returns_pure _))

end

theorem Program.of_isFlat {p : Program} (hp : p.isFlat = true) :
    ∃ name id stmts style pos, p = ⟨⟨name, [id], .block stmts, style, pos⟩⟩ ∧
      Stmt.listFlat id.name stmts = true ∧ (Stmt.listDeclared stmts).Nodup ∧
      ∀ x ∈ Stmt.listDeclared stmts, x ≠ id.name ∧ isNumberName x = false := by
  obtain ⟨⟨name, params, body, style, pos⟩⟩ := p
  match params, body with
  | [id], .block stmts =>
    obtain ⟨hflat, hnames⟩ := and_eq_true_iff.1 hp
    obtain ⟨hflat, hnodup⟩ := and_eq_true_iff.1 hflat
    refine ⟨name, id, stmts, style, pos, rfl, hflat, of_decide_eq_true hnodup, fun x hx => ?_⟩
    simpa using List.all_eq_true.1 hnames x hx

/-- **Flat scripts are in normal form.** -/
theorem Program.normal_flat {p : Program} (hp : p.isFlat = true) : (p.normal {}).1 = p := by
  obtain ⟨name, id, stmts, style, pos, rfl, hflat, -, -⟩ := Program.of_isFlat hp
  have hstmts : Returns (FuncBody.normal id.name (.block stmts)) (.block stmts) :=
    (Stmt.listNormal_flat true stmts hflat).bind (returns_pure _)
  exact congrArg (fun body => Program.mk ⟨name, [id], body, style, pos⟩) (hstmts _)

end Normal

end BarScript

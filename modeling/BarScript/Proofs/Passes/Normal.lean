import BarScript.Compile.Normal
import BarScript.Proofs.Scopes
import BarScript.Proofs.Shape

/-!
# Normal forms keep shapes

The normal form of a script is made of the parts of the script, so what is
asked of every expression and declaration of the script mostly holds of its
normal form too. `NormalForm.Keeps` says what a shape has to allow for that:
the few things that the normal form makes itself, which are temporaries,
elements of tuples and declared functions.
-/

namespace BarScript

open List Declarator

def FuncBody.isBlock : FuncBody → Bool
  | .block _ => true
  | .expr _ => false

/-- Declarators with the same target at the same position, both with an initial value or
both without. -/
def Declarator.Like (d d' : Declarator) : Prop :=
  d.target = d'.target ∧ d.init.isSome = d'.init.isSome ∧ d.pos = d'.pos

/-- What one shape allows to be declared, the other one allows as well, also in
part and with other initial values. -/
def Shape.Redeclares (S T : Shape) : Prop :=
  ∀ ⦃ds l : List Declarator⦄, S.decls ds → (ds ≠ [] → l ≠ []) →
    (∀ d ∈ l, ∃ d' ∈ ds, d.Like d') → T.decls l

/-- A name may stand where the names of a tuple stand. -/
def Pattern.Readable (S : Shape) (target : Pattern) : Prop :=
  ∀ items, target = .array items → ∀ id, some id ∈ items →
    ∀ x, S.name x → S.expr (.ident ⟨x, id.pos⟩)

namespace NormalForm

/-- What a pass leaves as it is: the open scopes, the name of the context, the
reserved names and all that slotting hands out. -/
def fixed (s : Scopes) :
    List Frame × Option String × List String × List ScopeKind × Nat × Nat :=
  (s.frames, s.root?, s.reserved, s.entered, s.callIds, s.paramIds)

/-- What a pass changes only by drawing temporaries. -/
def ledger (p : Progress) := (fixed p.scopes, p.scopes.temps, p.scopes.nextTemp, p.expanded)

/-- What a computation gives where `I` holds of the progress, and that `I` still holds. -/
def Meets (I : Progress → Prop) (x : Pass α) (Q : α → Prop) : Prop :=
  ∀ p : Progress, I p → Q (x p).1 ∧ I (x p).2

/-- What holds throughout a pass if it holds at first: nothing but drawing the temporary
of a tuple bears on it, which keeps it and gives a name that is not reserved. -/
structure Throughout (names : List String) (I : Progress → Prop) : Prop where
  same : ∀ {p q}, ledger q = ledger p → I p → I q
  drawn : Meets I (do noteExpanded; temp) fun x => ∃ i, x = Scopes.tempName i ∧ x ∉ names

/-- What a shape allows if the normal form of every script of the shape has it
as well. -/
structure Keeps (root : String) (names : List String) (S : Shape) : Prop where
  expr : ∀ {e : Expr} (p : Progress), S.expr e → S.expr (e.normal root p).1
  named : ∀ {f : Func} (p : Progress), S.named f → S.named (f.normal root p).1 := by
    exact fun _ _ => trivial
  decls : S.Redeclares S := by exact fun _ _ _ _ _ => trivial
  /-- Names that are given functions become declared functions. -/
  hoisted : ∀ {id : Ident} (params stmts pos), S.name id.name →
    S.named ⟨some id, params, .block stmts, .classic, pos⟩ := by exact fun _ _ _ _ => trivial
  /-- A tuple is kept under a name that is not reserved. -/
  temp : ∀ i, Scopes.tempName i ∉ names → S.name (Scopes.tempName i) := by
    exact fun _ _ => trivial
  single : ∀ id init pos, S.decls [⟨.ident id, init, pos⟩] := by exact fun _ _ _ => trivial
  tuple : ∀ {ds}, S.decls ds → ∀ d ∈ ds, d.target.Readable S := by
    exact fun _ _ _ _ _ _ _ _ _ => trivial
  place : ∀ i : Nat, S.expr (.number i.toFloat) := by exact fun _ => trivial
  element : ∀ tuple (i : Nat), S.expr (.index (.ident tuple) (.number i.toFloat)) := by
    exact fun _ _ => trivial

theorem keeps_any (root : String) (names : List String) : Keeps root names .any where
  expr _ _ := trivial

variable {I : Progress → Prop} {names : List String} {α β : Type} {x : Pass α} {f : α → Pass β}
  {Q : α → Prop} {R : β → Prop}

theorem meets_pure (h : Q a) : Meets I (pure a) Q := fun _ hp => ⟨h, hp⟩

theorem Meets.bind (hx : Meets I x Q) (hf : ∀ a, Q a → Meets I (f a) R) :
    Meets I (x >>= f) R := fun p hp =>
  have h := hx p hp
  hf _ h.1 _ h.2

theorem Meets.map (hx : Meets I x Q) (hg : ∀ a, Q a → R (g a)) : Meets I (g <$> x) R := fun p hp =>
  have h := hx p hp
  ⟨hg _ h.1, h.2⟩

theorem throughout_fixed (s : Scopes) :
    Throughout s.reserved fun p => fixed p.scopes = fixed s where
  same h hp := (congrArg (·.1) h).trans hp
  drawn p hp := by
    have hreserved : p.scopes.reserved = s.reserved := congrArg (·.2.2.1) hp
    refine ⟨⟨_, rfl, ?_⟩, hp⟩
    rw [← hreserved]
    exact Scopes.tempName_freeTemp_not_mem p.scopes.reserved p.scopes.nextTemp

section Notes

variable (K : Throughout names I)

include K

theorem meets_modify (hg : ∀ p, ledger (g p) = ledger p) : Meets I (modify g) fun _ => True :=
  fun p hp => ⟨trivial, K.same (hg p) hp⟩

theorem meets_noteHoisted (name : String) : Meets I (noteHoisted name) fun _ => True :=
  meets_modify K fun _ => rfl

theorem meets_noteContextRead (top : Bool) (target : Pattern) :
    Meets I (noteContextRead top target) fun _ => True := by
  refine meets_modify K fun p => ?_
  cases top with
  | false => rfl
  | true =>
    induction target.names generalizing p with
    | nil => rfl
    | cons x rest ih => exact ih { p with scopes := p.scopes.bindGlobally x }

theorem meets_noteElements (items : List (Option Ident)) :
    Meets I (note fun s => items.foldl (fun s item => item.elim s fun id => s.addElement id.name) s)
      fun _ => True := by
  refine meets_modify K fun p => ?_
  induction items generalizing p with
  | nil => rfl
  | cons item rest ih =>
    refine
      (ih { p with scopes := item.elim p.scopes fun id => p.scopes.addElement id.name }).trans ?_
    cases item <;> rfl

end Notes

/-! ## Declarations -/

section Shapes

variable {root : String} {S : Shape}

variable {ds pending : List Declarator} {piece : Piece} {pieces : List Piece} {kind : DeclKind}

/-- What becomes of one of some declarators has a shape. -/
def Piece.All (S : Shape) (ds : List Declarator) : Piece → Prop
  | .kept d => (d.target.All S ∧ Expr.OptAll S d.init) ∧ ∃ d' ∈ ds, d.Like d'
  | .replaced stmts => Stmt.ListAll S stmts

theorem Piece.All.mono (h : ds ⊆ ds') (hp : piece.All S ds) : piece.All S ds' := by
  cases piece with
  | kept d =>
    obtain ⟨hd, d', hmem, hlike⟩ := hp
    exact ⟨hd, d', h hmem, hlike⟩
  | replaced stmts => exact hp

/-- The pieces of declarators, one after the other. -/
theorem Piece.forall_cons (hpiece : piece.All S [d])
    (hrest : ∀ p ∈ pieces, p.All S rest) : ∀ p ∈ piece :: pieces, p.All S (d :: rest) := by
  refine forall_mem_cons.2 ⟨hpiece.mono ?_, fun p hp => (hrest p hp).mono ?_⟩
  · exact cons_subset_cons d (nil_subset rest)
  · exact subset_cons_self d rest

theorem hoisted_name {id : Ident} (h : (Pattern.ident id).All S) :
    ∀ id' ∈ some id, S.name id'.name := by
  rintro _ ⟨⟩
  exact h id mem_cons_self

theorem single_all (h : Stmt.ListAll S stmts) : (single stmts).All S := by
  match stmts with
  | [] => exact h
  | [s] => exact h.1
  | _ :: _ :: _ => exact h

variable (H : Keeps root names S)

include H

theorem flush_all (hds : S.decls ds) (hp : ∀ d ∈ pending, Piece.All S ds (.kept d)) :
    Stmt.ListAll S (flush kind pending) := by
  cases pending with
  | nil => exact trivial
  | cons d rest =>
    refine ⟨⟨?_, ?_⟩, trivial⟩
    · exact H.decls hds (fun _ => cons_ne_nil d rest) fun d hd => (hp d hd).2
    · exact listAll_iff.2 fun d hd => (hp d hd).1

theorem gather_all (hds : S.decls ds) (hp : ∀ d ∈ pending, Piece.All S ds (.kept d))
    (hpieces : ∀ piece ∈ pieces, piece.All S ds) : Stmt.ListAll S (gather kind pending pieces) := by
  induction pieces generalizing pending with
  | nil => exact flush_all H hds hp
  | cons piece rest ih =>
    obtain ⟨hpiece, hrest⟩ := forall_mem_cons.1 hpieces
    cases piece with
    | kept d =>
      refine ih (fun d' hd' => ?_) hrest
      rcases mem_append.1 hd' with hd' | hd'
      · exact hp d' hd'
      · rw [mem_singleton.1 hd']
        exact hpiece
    | replaced stmts =>
      show Stmt.ListAll S (flush kind pending ++ stmts ++ gather kind [] rest)
      rw [Stmt.listAll_append, Stmt.listAll_append]
      exact ⟨⟨flush_all H hds hp, hpiece⟩, ih (fun _ h => nomatch h) hrest⟩

theorem elements_all (htuple : ∀ id, some id ∈ items → S.expr (.ident ⟨tuple, id.pos⟩))
    (hitems : (Pattern.array items).All S) : Stmt.ListAll S (elements kind tuple items) := by
  refine Stmt.listAll_iff.2 fun t ht => ?_
  obtain ⟨⟨item, i⟩, hmem, hitem⟩ := mem_filterMap.1 ht
  obtain ⟨id, rfl, rfl⟩ := Option.map_eq_some_iff.1 hitem
  have hmem : some id ∈ items := fst_mem_of_mem_zipIdx hmem
  have hid : S.name id.name := hitems id (mem_filterMap.2 ⟨_, hmem, rfl⟩)
  refine ⟨H.single _ _ _, ?_, ⟨H.element _ i, htuple id hmem, H.place i⟩, trivial⟩
  intro id' hid'
  rw [mem_singleton.1 hid']
  exact hid

end Shapes

end NormalForm

open NormalForm

/-- Only the body of a function changes, and it stays of its kind. -/
theorem Func.normal_eq (root : String) (f : Func) (p : Progress) :
    ∃ body : FuncBody, (f.normal root p).1 = { f with body } ∧ body.isBlock = f.body.isBlock := by
  match f with
  | ⟨_, _, .block _, _, _⟩ => exact ⟨_, rfl, rfl⟩
  | ⟨_, _, .expr _, _, _⟩ => exact ⟨_, rfl, rfl⟩

/-- What becomes of one declarator with an initial value. -/
def Declarator.piece (root : String) (top : Bool) (kind : DeclKind) (target : Pattern)
    (init : Expr) (pos : Position) : Pass Piece :=
  if init.isContextRead root then do
    noteContextRead top target
    pure (.kept ⟨target, some init, pos⟩)
  else match target, init with
    | .ident id, .func ⟨_, params, .block stmts, _, funcPos⟩ => do
      noteHoisted id.name
      let stmts ← Stmt.listNormal root false stmts
      pure (.replaced [.func ⟨some id, params, .block stmts, .classic, funcPos⟩])
    | .ident id, .func ⟨_, params, .expr e, _, funcPos⟩ => do
      noteHoisted id.name
      let e ← e.normal root
      pure (.replaced [.func ⟨some id, params, .block [.ret (some e)], .classic, funcPos⟩])
    | .array items, _ => do
      noteExpanded
      let tuple ← temp
      let init ← init.normal root
      note fun s => items.foldl (fun s item => item.elim s fun id => s.addElement id.name) s
      pure (.replaced (.decl ⟨kind, [⟨.ident ⟨tuple, pos⟩, some init, pos⟩]⟩ ::
        elements kind tuple items))
    | _, _ => do
      let init ← init.normal root
      pure (.kept ⟨target, some init, pos⟩)

theorem Declarator.pieces_cons (root : String) (top : Bool) (kind : DeclKind) (target : Pattern)
    (init : Expr) (pos : Position) (rest : List Declarator) :
    pieces root top kind (⟨target, some init, pos⟩ :: rest) = (do
      let piece ← piece root top kind target init pos
      return piece :: (← pieces root top kind rest)) := by
  conv_lhs => unfold pieces
  unfold piece
  cases target with
  | object props => dsimp only; split <;> rfl
  | array items => dsimp only; split <;> rfl
  | ident id =>
    cases init with
    | func f =>
      obtain ⟨_, _, body, _, _⟩ := f
      cases body <;> (dsimp only; split <;> rfl)
    | _ => dsimp only; split <;> rfl

section Trees

variable {root : String} {names : List String} {I : Progress → Prop} {S : Shape}
  (K : Throughout names I) (H : Keeps root names S)

include K H

theorem Declarator.piece_all {top : Bool} {kind : DeclKind}
    {target : Pattern} {init : Expr} {pos : Position} (ht : target.All S)
    (hplaces : target.Readable S) (hi : init.All S)
    (hinit : Meets I (init.normal root) fun e => e.All S) :
    Meets I (piece root top kind target init pos)
      (Piece.All S [⟨target, some init, pos⟩]) := by
  unfold piece
  split
  · refine (meets_noteContextRead K top target).bind fun _ _ => meets_pure ?_
    exact ⟨⟨ht, hi⟩, _, mem_cons_self, rfl, rfl, rfl⟩
  · split
    · -- the normal form of the function is that of its body
      rename_i id _ params stmts _ _ _
      refine (meets_noteHoisted K id.name).bind fun _ _ => ?_
      have hbody : Meets I (Stmt.listNormal root false stmts) fun l => Stmt.ListAll S l :=
        fun p hp => ⟨(hinit p hp).1.2.2, (hinit p hp).2⟩
      refine hbody.bind fun stmts' h => meets_pure ?_
      exact ⟨⟨H.hoisted _ _ _ (hoisted_name ht id rfl), hoisted_name ht, hi.2.1, h⟩, trivial⟩
    · rename_i id _ params e _ _ _
      refine (meets_noteHoisted K id.name).bind fun _ _ => ?_
      have hbody : Meets I (e.normal root) fun e => e.All S :=
        fun p hp => ⟨(hinit p hp).1.2.2, (hinit p hp).2⟩
      refine hbody.bind fun e' h => meets_pure ?_
      exact ⟨⟨H.hoisted _ _ _ (hoisted_name ht id rfl), hoisted_name ht, hi.2.1, h, trivial⟩,
        trivial⟩
    · rename_i items
      rw [← bind_assoc]
      refine K.drawn.bind fun tuple htuple => ?_
      refine hinit.bind fun init' h => ?_
      refine (meets_noteElements K items).bind fun _ _ => meets_pure ?_
      obtain ⟨i, rfl, hfree⟩ := htuple
      have hname := H.temp i hfree
      exact ⟨⟨H.single _ _ _, forall_mem_singleton.2 hname, h, trivial⟩,
        elements_all H (fun id hid => hplaces items rfl id hid _ hname) ht⟩
    · refine hinit.bind fun init' h => meets_pure ?_
      exact ⟨⟨ht, h⟩, _, mem_cons_self, rfl, rfl, rfl⟩

set_option linter.unusedSectionVars false -- used through other members

mutual

/-- The normal form of an expression keeps the shape. -/
theorem Expr.normal_all (e : Expr) (he : e.All S) : Meets I (e.normal root) fun e' => e'.All S := by
  intro p hp
  have hexpr := H.expr p he.expr
  match e with
  | .func f =>
    have hf := f.normal_all he.2 p hp
    exact ⟨⟨hexpr, hf.1⟩, hf.2⟩
  | .member base _ =>
    have hb := base.normal_all he.2 p hp
    exact ⟨⟨hexpr, hb.1⟩, hb.2⟩
  | .index base sub =>
    have hb := base.normal_all he.2.1 p hp
    have hs := sub.normal_all he.2.2 _ hb.2
    exact ⟨⟨hexpr, hb.1, hs.1⟩, hs.2⟩
  | .call callee args =>
    have hc := callee.normal_all he.2.1 p hp
    have ha := Expr.listNormal_all args he.2.2 _ hc.2
    exact ⟨⟨hexpr, hc.1, ha.1⟩, ha.2⟩
  | .unary _ arg =>
    have ha := arg.normal_all he.2 p hp
    exact ⟨⟨hexpr, ha.1⟩, ha.2⟩
  | .update _ _ target =>
    have ht := target.normal_all he.2 p hp
    exact ⟨⟨hexpr, ht.1⟩, ht.2⟩
  | .binary _ left right | .logical _ left right =>
    have hl := left.normal_all he.2.1 p hp
    have hr := right.normal_all he.2.2 _ hl.2
    exact ⟨⟨hexpr, hl.1, hr.1⟩, hr.2⟩
  | .conditional test consequent alternate =>
    have ht := test.normal_all he.2.1 p hp
    have hc := consequent.normal_all he.2.2.1 _ ht.2
    have ha := alternate.normal_all he.2.2.2 _ hc.2
    exact ⟨⟨hexpr, ht.1, hc.1, ha.1⟩, ha.2⟩
  | .assign _ target value =>
    have ht := target.normal_all he.2.1 p hp
    have hv := value.normal_all he.2.2 _ ht.2
    exact ⟨⟨hexpr, ht.1, hv.1⟩, hv.2⟩
  | .array items =>
    have hi := Expr.listNormal_all items he.2 p hp
    exact ⟨⟨hexpr, hi.1⟩, hi.2⟩
  | .object props =>
    have hi := Expr.propNormal_all props he.2 p hp
    exact ⟨⟨hexpr, hi.1⟩, hi.2⟩
  | .number _ | .str _ | .bool _ | .null | .undefined | .ident _ | .this => exact ⟨he, hp⟩

theorem Expr.listNormal_all (es : List Expr) (he : Expr.ListAll S es) :
    Meets I (Expr.listNormal root es) fun es' => Expr.ListAll S es' := by
  match es with
  | [] => exact meets_pure trivial
  | e :: rest =>
    intro p hp
    have h := e.normal_all he.1 p hp
    have hrest := Expr.listNormal_all rest he.2 _ h.2
    exact ⟨⟨h.1, hrest.1⟩, hrest.2⟩

theorem Expr.propNormal_all (props : List (String × Expr)) (he : Expr.PropAll S props) :
    Meets I (Expr.propNormal root props) fun props' => Expr.PropAll S props' := by
  match props with
  | [] => exact meets_pure trivial
  | (k, e) :: rest =>
    intro p hp
    have h := e.normal_all he.1 p hp
    have hrest := Expr.propNormal_all rest he.2 _ h.2
    exact ⟨⟨h.1, hrest.1⟩, hrest.2⟩

theorem Expr.optNormal_all (e? : Option Expr) (he : Expr.OptAll S e?) :
    Meets I (Expr.optNormal root e?) fun e' => Expr.OptAll S e' := by
  match e? with
  | none => exact meets_pure trivial
  | some e => exact (e.normal_all he).map fun _ h => h

theorem Func.normal_all (f : Func) (hf : f.All S) : Meets I (f.normal root) fun f' => f'.All S := by
  match f with
  | ⟨name, params, .block stmts, style, pos⟩ =>
    exact (Stmt.listNormal_all false stmts hf.2).map fun _ h => ⟨hf.1, h⟩
  | ⟨name, params, .expr e, style, pos⟩ =>
    exact (e.normal_all hf.2).map fun _ h => ⟨hf.1, h⟩

theorem Stmt.normal_all (top : Bool) (t : Stmt) (hs : t.All S) :
    Meets I (t.normal root top) fun stmts => Stmt.ListAll S stmts := by
  match t with
  | .decl ⟨kind, ds⟩ =>
    exact (Declarator.pieces_all top kind ds (H.tuple hs.1) hs.2).map fun pieces h =>
      gather_all H hs.1 (fun _ hd => nomatch hd) h
  | .expr e => exact (e.normal_all hs).bind fun _ h => meets_pure ⟨h, trivial⟩
  | .branch test consequent none =>
    refine (test.normal_all hs.1).bind fun _ ht => ?_
    refine (consequent.normal_all false hs.2.1).bind fun _ hc => ?_
    exact meets_pure ⟨⟨ht, single_all hc, trivial⟩, trivial⟩
  | .branch test consequent (some alternate) =>
    refine (test.normal_all hs.1).bind fun _ ht => ?_
    refine (consequent.normal_all false hs.2.1).bind fun _ hc => ?_
    have halternate : Meets I ((some ∘ single) <$> alternate.normal root false)
        (Stmt.OptAll S) := (alternate.normal_all false hs.2.2).map fun _ ha => single_all ha
    exact halternate.bind fun _ ha => meets_pure ⟨⟨ht, single_all hc, ha⟩, trivial⟩
  | .forLoop init test update body =>
    obtain ⟨hinit, htest, hupdate, hbody⟩ := hs
    have hrest : ∀ i, ForInit.OptAll S i → Meets I (do
        let test ← Expr.optNormal root test
        let update ← Expr.optNormal root update
        let body ← body.normal root false
        return [.forLoop i test update (single body)]) fun stmts => Stmt.ListAll S stmts := by
      intro i hi
      refine (Expr.optNormal_all test htest).bind fun _ ht => ?_
      refine (Expr.optNormal_all update hupdate).bind fun _ hu => ?_
      refine (body.normal_all false hbody).bind fun _ hb => ?_
      exact meets_pure ⟨⟨hi, ht, hu, single_all hb⟩, trivial⟩
    match init with
    | none => exact hrest none trivial
    | some (.decl ⟨kind, ds⟩) =>
      refine ((Declarator.headerNormal_all ds hinit.2).map ?_).bind hrest
      exact fun _ h => ⟨H.decls hinit.1 h.2.1 h.2.2, h.1⟩
    | some (.expr e) =>
      have he : Meets I ((some ∘ .expr) <$> e.normal root) (ForInit.OptAll S) :=
        (e.normal_all hinit).map fun _ h => h
      exact he.bind hrest
  | .whileLoop test body =>
    refine (test.normal_all hs.1).bind fun _ ht => ?_
    refine (body.normal_all false hs.2).bind fun _ hb => ?_
    exact meets_pure ⟨⟨ht, single_all hb⟩, trivial⟩
  | .block stmts =>
    exact (Stmt.listNormal_all top stmts hs).bind fun _ h => meets_pure ⟨h, trivial⟩
  | .ret arg => exact (Expr.optNormal_all arg hs).bind fun _ h => meets_pure ⟨h, trivial⟩
  | .func f =>
    obtain ⟨hnamed, hname, hf⟩ := hs
    have hfunc : Meets I (f.normal root) fun f' => (Stmt.func f').All S := by
      intro p hp
      have h := f.normal_all hf p hp
      refine ⟨⟨H.named p hnamed, ?_, h.1⟩, h.2⟩
      obtain ⟨body, hbody, -⟩ := Func.normal_eq root f p
      rw [hbody]
      exact hname
    have hrest : Meets I (do return [.func (← f.normal root)]) fun stmts =>
        Stmt.ListAll S stmts := hfunc.bind fun _ h => meets_pure ⟨h, trivial⟩
    unfold Stmt.normal
    cases f.name with
    | none => exact hrest
    | some id =>
      exact (meets_modify K (g := fun p => { p with scopes := p.scopes.addFunction id.name })
        fun _ => rfl).bind fun _ _ => hrest
  | .breakLoop | .continueLoop | .empty => exact meets_pure ⟨trivial, trivial⟩

theorem Stmt.listNormal_all (top : Bool) (stmts : List Stmt) (hs : Stmt.ListAll S stmts) :
    Meets I (Stmt.listNormal root top stmts) fun stmts' => Stmt.ListAll S stmts' := by
  match stmts with
  | [] => exact meets_pure trivial
  | t :: rest =>
    refine (t.normal_all top hs.1).bind fun l hl => ?_
    exact (Stmt.listNormal_all top rest hs.2).map fun _ h => Stmt.listAll_append.2 ⟨hl, h⟩

theorem Declarator.pieces_all (top : Bool) (kind : DeclKind) (ds : List Declarator)
    (hplaces : ∀ d ∈ ds, d.target.Readable S) (hd : Declarator.ListAll S ds) :
    Meets I (pieces root top kind ds) fun pieces =>
      ∀ piece ∈ pieces, piece.All S ds := by
  match ds with
  | [] => exact meets_pure fun _ h => nomatch h
  | ⟨target, none, pos⟩ :: rest =>
    have hplaces := forall_mem_cons.1 hplaces
    refine (Declarator.pieces_all top kind rest hplaces.2 hd.2.2).bind fun pieces h => ?_
    exact meets_pure (Piece.forall_cons ⟨⟨hd.1, hd.2.1⟩, _, mem_cons_self, rfl, rfl, rfl⟩ h)
  | ⟨target, some init, pos⟩ :: rest =>
    rw [pieces_cons]
    have hplaces := forall_mem_cons.1 hplaces
    refine (piece_all K H hd.1 hplaces.1 hd.2.1 (init.normal_all hd.2.1)).bind fun piece h => ?_
    refine (Declarator.pieces_all top kind rest hplaces.2 hd.2.2).bind fun pieces hrest => ?_
    exact meets_pure (Piece.forall_cons h hrest)

theorem Declarator.headerNormal_all (ds : List Declarator) (hd : Declarator.ListAll S ds) :
    Meets I (headerNormal root ds) fun ds' => Declarator.ListAll S ds' ∧
      (ds ≠ [] → ds' ≠ []) ∧ ∀ d ∈ ds', ∃ d' ∈ ds, d.Like d' := by
  match ds with
  | [] => exact meets_pure ⟨trivial, id, fun _ h => nomatch h⟩
  | ⟨target, init, pos⟩ :: rest =>
    have hinit : Meets I (Expr.optNormal root init) fun i =>
        Expr.OptAll S i ∧ i.isSome = init.isSome := by
      intro p hp
      have h := Expr.optNormal_all init hd.2.1 p hp
      refine ⟨⟨h.1, ?_⟩, h.2⟩
      cases init <;> rfl
    refine hinit.bind fun i hi => ?_
    refine (Declarator.headerNormal_all rest hd.2.2).bind fun ds' h => ?_
    refine meets_pure ⟨⟨hd.1, hi.1, h.1⟩, fun _ => cons_ne_nil _ _, ?_⟩
    intro d hmem
    rcases mem_cons.1 hmem with rfl | hmem
    · exact ⟨_, mem_cons_self, rfl, hi.2, rfl⟩
    · obtain ⟨d', hd', hlike⟩ := h.2.2 d hmem
      exact ⟨d', mem_cons_of_mem _ hd', hlike⟩

end

theorem FuncBody.normal_all (body : FuncBody) (hb : body.All S) :
    Meets I (body.normal root) fun body' => body'.All S := by
  cases body with
  | block stmts =>
    exact (Stmt.listNormal_all K H true stmts hb).bind fun _ h => meets_pure h
  | expr e => exact (e.normal_all K H hb).bind fun _ h => meets_pure h

end Trees

/-- The scopes in which a script is brought into normal form. -/
def Program.scoped (p : Program) (s : Scopes) : Scopes :=
  (s.setRoot p.rootParam).reserve p.root.names

theorem NormalForm.root_of_fixed {p : Program} (h : fixed s = fixed (p.scoped {})) :
    s.root = p.rootParam := by
  have hroot : s.root? = some p.rootParam := congrArg (·.2.1) h
  unfold Scopes.root
  rw [hroot]
  rfl

/-- **Normal forms keep shapes**, and leave the fixed parts of scopes alone. -/
theorem Program.normal_all {p : Program} (H : Keeps p.rootParam (p.scoped s).reserved S)
    (hp : p.root.body.All S) :
    (p.normal s).1.root.body.All S ∧ fixed (p.normal s).2.scopes = fixed (p.scoped s) :=
  FuncBody.normal_all (throughout_fixed _) H p.root.body hp { scopes := p.scoped s } rfl

theorem Program.isBlock_normal (p : Program) (s : Scopes) :
    (p.normal s).1.root.body.isBlock = p.root.body.isBlock := by
  obtain ⟨⟨name, params, body, style, pos⟩⟩ := p
  cases body <;> rfl

theorem Scopes.mem_reserve {s : Scopes} (h : x ∈ names) : x ∈ (s.reserve names).reserved := by
  show x ∈ names.foldl (fun r n => r.insert n) s.reserved
  have hkept : ∀ (l r : List String), x ∈ r → x ∈ l.foldl (fun r n => r.insert n) r := by
    intro l
    induction l with
    | nil => exact fun _ h => h
    | cons y l ih => exact fun r h => ih _ (mem_insert_iff.2 (.inr h))
  generalize s.reserved = r
  induction names generalizing r with
  | nil => cases h
  | cons y rest ih =>
    rcases mem_cons.1 h with rfl | h
    · exact hkept rest _ (mem_insert_self)
    · exact ih h _

end BarScript

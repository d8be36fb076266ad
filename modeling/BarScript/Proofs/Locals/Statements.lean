import BarScript.Proofs.Passes.Normal

/-!
# The statements of a tree

What a compilation does with the variables of a script shows in the statements of the trees
it makes. Here a tree is read as the list of all its statements, those in the bodies of
functions included. A block is no statement of its own, and a declaration of several names is
as many declarations. So the list does not change when the normal form groups statements in
another way.

The first stage makes new statements of declarations: a name that is given a function becomes
a function, and a tuple becomes a temporary and its elements. It does not lose a name by that,
and all that it notes down about names is to be found in the statements that it makes.
-/

namespace BarScript

open List Declarator

/-! ## Statements at every depth -/

mutual

/-- The statements in an expression, which are those of the functions in it. -/
def Expr.statements : Expr → List Stmt
  | .member base _ => base.statements
  | .index base sub => base.statements ++ sub.statements
  | .call callee args => callee.statements ++ Expr.listStatements args
  | .unary _ arg => arg.statements
  | .update _ _ target => target.statements
  | .binary _ left right => left.statements ++ right.statements
  | .logical _ left right => left.statements ++ right.statements
  | .conditional test consequent alternate =>
    test.statements ++ (consequent.statements ++ alternate.statements)
  | .assign _ target value => target.statements ++ value.statements
  | .array items => Expr.listStatements items
  | .object props => Expr.propStatements props
  | .func f => f.statements
  | .number _ | .str _ | .bool _ | .null | .undefined | .ident _ | .this => []

def Expr.listStatements : List Expr → List Stmt
  | [] => []
  | e :: rest => e.statements ++ Expr.listStatements rest

def Expr.propStatements : List (String × Expr) → List Stmt
  | [] => []
  | (_, e) :: rest => e.statements ++ Expr.propStatements rest

def Expr.optStatements : Option Expr → List Stmt
  | none => []
  | some e => e.statements

def Func.statements : Func → List Stmt
  | ⟨_, _, body, _, _⟩ => body.statements

def FuncBody.statements : FuncBody → List Stmt
  | .block stmts => Stmt.listStatements stmts
  | .expr e => e.statements

def Stmt.statements : Stmt → List Stmt
  | .decl ⟨kind, declarators⟩ => Declarator.listStatements kind declarators
  | .expr e => .expr e :: e.statements
  | .branch test consequent alternate =>
    .branch test consequent alternate ::
      (test.statements ++ (consequent.statements ++ Stmt.optStatements alternate))
  | .forLoop init test update body =>
    .forLoop init test update body :: (ForInit.optStatements init ++
      (Expr.optStatements test ++ (Expr.optStatements update ++ body.statements)))
  | .whileLoop test body => .whileLoop test body :: (test.statements ++ body.statements)
  | .block stmts => Stmt.listStatements stmts
  | .ret arg => .ret arg :: Expr.optStatements arg
  | .func f => .func f :: f.statements
  | .breakLoop => [.breakLoop]
  | .continueLoop => [.continueLoop]
  | .empty => [.empty]

def Stmt.listStatements : List Stmt → List Stmt
  | [] => []
  | s :: rest => s.statements ++ Stmt.listStatements rest

def Stmt.optStatements : Option Stmt → List Stmt
  | none => []
  | some s => s.statements

def ForInit.optStatements : Option ForInit → List Stmt
  | none => []
  | some (.decl ⟨_, declarators⟩) => Declarator.headerStatements declarators
  | some (.expr e) => e.statements

def Declarator.listStatements (kind : DeclKind) : List Declarator → List Stmt
  | [] => []
  | ⟨target, init, pos⟩ :: rest =>
    .decl ⟨kind, [⟨target, init, pos⟩]⟩ ::
      (Expr.optStatements init ++ Declarator.listStatements kind rest)

def Declarator.headerStatements : List Declarator → List Stmt
  | [] => []
  | ⟨_, init, _⟩ :: rest => Expr.optStatements init ++ Declarator.headerStatements rest

end

theorem Stmt.listStatements_append (ss ts : List Stmt) :
    Stmt.listStatements (ss ++ ts) = Stmt.listStatements ss ++ Stmt.listStatements ts := by
  induction ss with
  | nil => rfl
  | cons s rest ih =>
    show s.statements ++ Stmt.listStatements (rest ++ ts) = _
    rw [ih, ← append_assoc]
    rfl

theorem Stmt.listStatements_singleton (s : Stmt) : Stmt.listStatements [s] = s.statements :=
  List.append_nil _

theorem Stmt.mem_listStatements (ht : t ∈ stmts)
    (hs : s ∈ t.statements) : s ∈ Stmt.listStatements stmts := by
  induction stmts with
  | nil => cases ht
  | cons t' rest ih =>
    rcases mem_cons.1 ht with rfl | ht
    · exact mem_append_left _ hs
    · exact mem_append_right _ (ih ht)

theorem Declarator.listStatements_append (kind : DeclKind) (ds es : List Declarator) :
    listStatements kind (ds ++ es) =
      listStatements kind ds ++ listStatements kind es := by
  induction ds with
  | nil => rfl
  | cons d rest ih =>
    obtain ⟨target, init, pos⟩ := d
    show _ :: (Expr.optStatements init ++ listStatements kind (rest ++ es)) = _
    rw [ih, ← append_assoc]
    rfl

/-! ## Names of statements -/

def Stmt.declaredNames : Stmt → List String
  | .decl ⟨_, declarators⟩ => declarators.flatMap fun d => d.target.names
  | _ => []

/-- The names that a statement reads off the context. -/
def Stmt.readNames (root : String) : Stmt → List String
  | .decl ⟨_, declarators⟩ => declarators.flatMap fun d =>
    if d.init.any (Expr.isContextRead root) then d.target.names else []
  | _ => []

/-- The names that a statement keeps as they are: those it reads off the context, and those
of functions. -/
def Stmt.keptNames (root : String) : Stmt → List String
  | .func f => f.name.toList.map Ident.name
  | s => s.readNames root

theorem Stmt.keptNames_of_read {s : Stmt} (hx : x ∈ s.readNames root) : x ∈ s.keptNames root := by
  cases s with
  | func f => cases hx
  | _ => exact hx

def declaredIn (stmts : List Stmt) : List String :=
  stmts.flatMap Stmt.declaredNames

def keptIn (root : String) (stmts : List Stmt) : List String :=
  stmts.flatMap (Stmt.keptNames root)

section Names

variable {root x : String} {ss ts : List Stmt}

variable {s : Stmt} {kind : DeclKind} {target : Pattern} {init : Option Expr} {pos : Position}

theorem mem_declaredIn_append :
    x ∈ declaredIn (ss ++ ts) ↔ x ∈ declaredIn ss ∨ x ∈ declaredIn ts := by
  unfold declaredIn
  rw [flatMap_append, mem_append]

theorem mem_keptIn_append :
    x ∈ keptIn root (ss ++ ts) ↔ x ∈ keptIn root ss ∨ x ∈ keptIn root ts := by
  unfold keptIn
  rw [flatMap_append, mem_append]

theorem mem_declaredIn_cons :
    x ∈ declaredIn (s :: ss) ↔ x ∈ s.declaredNames ∨ x ∈ declaredIn ss := by
  unfold declaredIn
  rw [flatMap_cons, mem_append]

theorem mem_keptIn_cons :
    x ∈ keptIn root (s :: ss) ↔ x ∈ s.keptNames root ∨ x ∈ keptIn root ss := by
  unfold keptIn
  rw [flatMap_cons, mem_append]

theorem mem_declaredNames_single :
    x ∈ (Stmt.decl ⟨kind, [⟨target, init, pos⟩]⟩).declaredNames ↔ x ∈ target.names := by
  show x ∈ target.names ++ [] ↔ _
  rw [List.append_nil]

theorem mem_readNames_single : x ∈ (Stmt.decl ⟨kind, [⟨target, init, pos⟩]⟩).readNames root ↔
      init.any (Expr.isContextRead root) = true ∧ x ∈ target.names := by
  show x ∈ (if _ then _ else _) ++ [] ↔ _
  rw [List.append_nil]
  by_cases h : init.any (Expr.isContextRead root) = true
  · rw [if_pos h]
    exact ⟨fun hx => ⟨h, hx⟩, And.right⟩
  · rw [if_neg h]
    exact ⟨nofun, fun hx => absurd hx.1 h⟩

end Names

/-! ## Names through the normal form -/

namespace NormalForm

variable {s : Stmt} {kind : DeclKind} {d : Declarator} {tuple : String}
  {items : List (Option Ident)}

/-- The names that are noted down to be kept. -/
def Noted (p : Progress) (x : String) : Prop :=
  x ∈ p.scopes.functions ∨ x ∈ p.scopes.contextNames

/-- What is known of statements and of those that are made of them: a name that is noted on
the way is kept, and a name that was declared is declared or kept. -/
structure Notes (root : String) (p p' : Progress) (src dst : List Stmt) : Prop where
  noted : ∀ x, Noted p' x → Noted p x ∨ x ∈ keptIn root dst
  declared : ∀ x ∈ declaredIn src, x ∈ declaredIn dst ∨ x ∈ keptIn root dst

variable {root : String} {p p' p'' : Progress} {src src' dst dst' : List Stmt}

theorem Notes.refl (p : Progress) : Notes root p p [] [] where
  noted _ := .inl
  declared _ hx := nomatch hx

theorem Notes.trans (h : Notes root p p' src dst) (h' : Notes root p' p'' src' dst') :
    Notes root p p'' (src ++ src') (dst ++ dst') where
  noted x hx := by
    rw [mem_keptIn_append]
    rcases h'.noted x hx with hx | hx
    · exact (h.noted x hx).imp_right .inl
    · exact .inr (.inr hx)
  declared x hx := by
    rw [mem_declaredIn_append, mem_keptIn_append]
    rcases mem_declaredIn_append.1 hx with hx | hx
    · exact (h.declared x hx).imp .inl .inl
    · exact (h'.declared x hx).imp .inr .inr

theorem Notes.cons {s t : Stmt} (h : Notes root p p' src dst)
    (hst : ∀ x ∈ s.declaredNames, x ∈ t.declaredNames ∨ x ∈ t.keptNames root) :
    Notes root p p' (s :: src) (t :: dst) where
  noted x hx := (h.noted x hx).imp_right fun hx => mem_keptIn_cons.2 (.inr hx)
  declared x hx := by
    rw [mem_declaredIn_cons, mem_keptIn_cons]
    rcases mem_declaredIn_cons.1 hx with hx | hx
    · exact (hst x hx).imp .inl .inl
    · exact (h.declared x hx).imp .inr .inr

theorem Notes.more (h : Notes root p p' src dst) (t : Stmt) : Notes root p p' src (t :: dst) where
  noted x hx := (h.noted x hx).imp_right fun hx => mem_keptIn_cons.2 (.inr hx)
  declared x hx := (h.declared x hx).imp (fun hx => mem_declaredIn_cons.2 (.inr hx))
    fun hx => mem_keptIn_cons.2 (.inr hx)

theorem Notes.after (h : Notes root p' p'' src dst)
    (hp : ∀ x, Noted p' x → Noted p x ∨ x ∈ keptIn root dst) : Notes root p p'' src dst where
  noted x hx := (h.noted x hx).elim (hp x) .inr
  declared := h.declared

theorem Notes.single (h : Notes root p p' src s.statements) :
    Notes root p p' src (Stmt.listStatements [s]) :=
  (Stmt.listStatements_singleton s).symm ▸ h

theorem Notes.inside {t : Stmt} (h : Notes root p p' src dst) (hs : s.declaredNames = [])
    (ht : t.statements = t :: dst) : Notes root p p' (s :: src) (Stmt.listStatements [t]) := by
  refine Notes.single ?_
  rw [ht]
  exact h.cons fun x hx => nomatch hs ▸ hx

theorem noted_addFunction {s : Scopes} (h : Noted { p with scopes := s.addFunction y } x) :
    Noted { p with scopes := s } x ∨ x = y := by
  rcases h with h | h
  · exact (mem_insert_iff.1 h).symm.imp_left .inl
  · exact .inl (.inr h)

/-- A name that is given a function is noted and kept. -/
theorem Notes.hoist {id : Ident} {f : Func} (hd : d.target = .ident id) (hf : f.name = some id)
    (h : Notes root (noteHoisted id.name p).2 p' src dst) :
    Notes root p p' (.decl ⟨kind, [d]⟩ :: src) (.func f :: dst) := by
  have hkept {x : String} (hx : x = id.name) : x ∈ (Stmt.func f).keptNames root := by
    show x ∈ f.name.toList.map Ident.name
    rw [hf, hx]
    exact mem_cons_self
  refine (h.cons fun x hx => .inr (hkept ?_)).after fun x hx => ?_
  · obtain ⟨target, init, pos⟩ := d
    cases hd
    exact mem_singleton.1 (mem_declaredNames_single.1 hx)
  · exact (noted_addFunction hx).imp_right fun hx => mem_keptIn_cons.2 (.inl (hkept hx))

theorem noted_bindGlobally {x : String} {names : List String} {s : Scopes}
    (h : Noted { p with scopes := names.foldl Scopes.bindGlobally s } x) :
    Noted { p with scopes := s } x ∨ x ∈ names := by
  induction names generalizing s with
  | nil => exact .inl h
  | cons y rest ih =>
    rcases ih h with (h | h) | h
    · exact .inl (.inl h)
    · rcases mem_insert_iff.1 h with rfl | h
      · exact .inr mem_cons_self
      · exact .inl (.inr h)
    · exact .inr (mem_cons_of_mem _ h)

theorem addElements_eq (items : List (Option Ident)) (s : Scopes) :
    let s' := items.foldl (fun s item => item.elim s fun id => s.addElement id.name) s
    s'.functions = s.functions ∧ s'.contextNames = s.contextNames := by
  induction items generalizing s with
  | nil => exact ⟨rfl, rfl⟩
  | cons item rest ih => cases item <;> exact ih _

/-- Elements of tuples are not among the names that are noted. -/
theorem noted_addElements (items : List (Option Ident)) (h : Noted (note (fun s => items.foldl
      (fun s item => item.elim s fun id => s.addElement id.name) s) p).2 x) : Noted p x := by
  obtain ⟨hfunctions, hcontext⟩ := addElements_eq items p.scopes
  exact h.imp (hfunctions ▸ ·) (hcontext ▸ ·)

theorem statements_single (stmts : List Stmt) :
    (single stmts).statements = Stmt.listStatements stmts := by
  match stmts with
  | [] | _ :: _ :: _ => rfl
  | [s] => exact (List.append_nil _).symm

/-- The statements that a piece of a declaration becomes. -/
def Piece.statements (kind : DeclKind) : Piece → List Stmt
  | .kept d => listStatements kind [d]
  | .replaced stmts => Stmt.listStatements stmts

theorem listStatements_flush (kind : DeclKind) (pending : List Declarator) :
    Stmt.listStatements (flush kind pending) = listStatements kind pending := by
  cases pending with
  | nil => rfl
  | cons d rest => exact List.append_nil _

theorem listStatements_gather (kind : DeclKind) (pending : List Declarator) (pieces : List Piece) :
    Stmt.listStatements (gather kind pending pieces) =
      listStatements kind pending ++ pieces.flatMap (Piece.statements kind) := by
  induction pieces generalizing pending with
  | nil => exact (listStatements_flush kind pending).trans (List.append_nil _).symm
  | cons piece rest ih =>
    cases piece with
    | kept d =>
      show Stmt.listStatements (gather kind (pending ++ [d]) rest) = _
      rw [ih, listStatements_append, append_assoc]
      rfl
    | replaced stmts =>
      show Stmt.listStatements (flush kind pending ++ stmts ++ gather kind [] rest) = _
      rw [Stmt.listStatements_append, Stmt.listStatements_append, listStatements_flush, ih,
        append_assoc]
      rfl

theorem mem_declaredIn_elements (hx : x ∈ (Pattern.array items).names) :
    x ∈ declaredIn (Stmt.listStatements (elements kind tuple items)) := by
  obtain ⟨id, hid, rfl⟩ := mem_map.1 hx
  obtain ⟨item, hitem, rfl⟩ := mem_filterMap.1 hid
  obtain ⟨i, hi⟩ := mem_iff_getElem?.1 hitem
  refine mem_flatMap.2 ⟨_, Stmt.mem_listStatements (mem_filterMap.2
    ⟨(some id, i), mk_mem_zipIdx_iff_getElem?.2 hi, rfl⟩) mem_cons_self, ?_⟩
  exact mem_cons_self

/-- A tuple is declared as a temporary, which is followed by its elements. -/
theorem Notes.expand (hd : d.target = .array items)
    (h : Notes root p₁ p₂ src dst) (hp : ∀ x, Noted p₁ x → Noted p x)
    (hp' : ∀ x, Noted p' x → Noted p₂ x) : Notes root p p' (.decl ⟨kind, [d]⟩ :: src)
      (.decl ⟨kind, [d']⟩ :: dst ++ Stmt.listStatements (elements kind tuple items)) where
  noted x hx := by
    rw [mem_keptIn_append, mem_keptIn_cons]
    exact (h.noted x (hp' x hx)).imp (hp x) (.inl ∘ .inr)
  declared x hx := by
    rw [mem_declaredIn_append, mem_keptIn_append, mem_declaredIn_cons, mem_keptIn_cons]
    rcases mem_declaredIn_cons.1 hx with hx | hx
    · obtain ⟨target, init, pos⟩ := d
      cases hd
      exact .inl (.inr (mem_declaredIn_elements (mem_declaredNames_single.1 hx)))
    · exact (h.declared x hx).imp (.inl ∘ .inr) (.inl ∘ .inr)

end NormalForm

open NormalForm

section Trees

variable {root : String}

/-- **One declarator**, given its initial value. -/
theorem Declarator.notes_piece (top : Bool) (kind : DeclKind) (target : Pattern) {init : Expr}
    (pos : Position) (hinit : ∀ p, Notes root p (init.normal root p).2 init.statements
      (init.normal root p).1.statements) (p : Progress) :
    Notes root p (piece root top kind target init pos p).2
      (listStatements kind [⟨target, some init, pos⟩])
      ((piece root top kind target init pos p).1.statements kind) := by
  unfold piece
  split
  · next hread =>
    -- the names are noted in the body of the script only, and kept everywhere
    refine ⟨fun x hx => ?_, fun x hx => .inl hx⟩
    have hkept (hx : x ∈ target.names) :
        x ∈ keptIn root (listStatements kind [⟨target, some init, pos⟩]) := by
      refine mem_keptIn_cons.2 (.inl (Stmt.keptNames_of_read ?_))
      exact mem_readNames_single.2 ⟨hread, hx⟩
    cases top with
    | false => exact .inl hx
    | true => exact (noted_bindGlobally hx).imp_right hkept
  · split
    · exact .hoist rfl rfl ((hinit _).trans (.refl _))
    · refine .hoist rfl rfl ?_
      show Notes root _ _ (_ ++ []) ((_ ++ []) ++ [])
      simp only [List.append_nil]
      exact (hinit _).more _
    · next items =>
      exact .expand rfl ((hinit _).trans (.refl _)) (fun _ => id) fun _ => noted_addElements items
    · exact ((hinit p).trans (.refl _)).cons fun x hx => .inl hx

mutual

/-- **Expressions**: what is noted is kept, and nothing declared is lost. -/
theorem Expr.notes_normal (e : Expr) (p : Progress) :
    Notes root p (e.normal root p).2 e.statements (e.normal root p).1.statements := by
  match e with
  | .func f => exact f.notes_normal p
  | .member base _ => exact base.notes_normal p
  | .index base sub | .assign _ base sub => exact (base.notes_normal p).trans (sub.notes_normal _)
  | .call callee args => exact (callee.notes_normal p).trans (Expr.notes_listNormal args _)
  | .unary _ arg => exact arg.notes_normal p
  | .update _ _ target => exact target.notes_normal p
  | .binary _ left right | .logical _ left right =>
    exact (left.notes_normal p).trans (right.notes_normal _)
  | .conditional test consequent alternate =>
    exact (test.notes_normal p).trans ((consequent.notes_normal _).trans (alternate.notes_normal _))
  | .array items => exact Expr.notes_listNormal items p
  | .object props => exact Expr.notes_propNormal props p
  | .number _ | .str _ | .bool _ | .null | .undefined | .ident _ | .this => exact .refl p

theorem Expr.notes_listNormal (es : List Expr) (p : Progress) :
    Notes root p (Expr.listNormal root es p).2 (Expr.listStatements es)
      (Expr.listStatements (Expr.listNormal root es p).1) := by
  match es with
  | [] => exact .refl p
  | e :: rest => exact (e.notes_normal p).trans (Expr.notes_listNormal rest _)

theorem Expr.notes_propNormal (props : List (String × Expr)) (p : Progress) :
    Notes root p (Expr.propNormal root props p).2 (Expr.propStatements props)
      (Expr.propStatements (Expr.propNormal root props p).1) := by
  match props with
  | [] => exact .refl p
  | (_, e) :: rest => exact (e.notes_normal p).trans (Expr.notes_propNormal rest _)

theorem Expr.notes_optNormal (e? : Option Expr) (p : Progress) :
    Notes root p (Expr.optNormal root e? p).2 (Expr.optStatements e?)
      (Expr.optStatements (Expr.optNormal root e? p).1) := by
  match e? with
  | none => exact .refl p
  | some e => exact e.notes_normal p

theorem Func.notes_normal (f : Func) (p : Progress) :
    Notes root p (f.normal root p).2 f.statements (f.normal root p).1.statements := by
  match f with
  | ⟨_, _, .block stmts, _, _⟩ => exact Stmt.notes_listNormal false stmts p
  | ⟨_, _, .expr e, _, _⟩ => exact e.notes_normal p

/-- **Statements**: the same. -/
theorem Stmt.notes_normal (top : Bool) (s : Stmt) (p : Progress) :
    Notes root p (s.normal root top p).2 s.statements
      (Stmt.listStatements (s.normal root top p).1) := by
  match s with
  | .decl ⟨kind, ds⟩ =>
    show Notes root p _ _ (Stmt.listStatements (gather kind [] _))
    rw [listStatements_gather]
    exact Declarator.notes_pieces top kind ds p
  | .expr e =>
    exact (e.notes_normal p).inside rfl rfl
  | .branch test consequent none =>
    have hbody := consequent.notes_normal false (test.normal root p).2
    rw [← statements_single] at hbody
    exact ((test.notes_normal p).trans (hbody.trans (.refl _))).inside rfl rfl
  | .branch test consequent (some alternate) =>
    have hbody := consequent.notes_normal false (test.normal root p).2
    have hother := alternate.notes_normal false
      (consequent.normal root false (test.normal root p).2).2
    rw [← statements_single] at hbody hother
    exact ((test.notes_normal p).trans (hbody.trans hother)).inside rfl rfl
  | .forLoop init test update body =>
    have hbody (q : Progress) : Notes root q (body.normal root false q).2 body.statements
        (single (body.normal root false q).1).statements := by
      rw [statements_single]
      exact body.notes_normal false q
    have hrest (q : Progress) := (Expr.notes_optNormal test q).trans
      ((Expr.notes_optNormal update _).trans (hbody _))
    match init with
    | none => exact ((Notes.refl p).trans (hrest p)).inside rfl rfl
    | some (.decl ⟨_, ds⟩) =>
      exact ((Declarator.notes_headerNormal ds p).trans (hrest _)).inside rfl rfl
    | some (.expr e) =>
      exact ((e.notes_normal p).trans (hrest _)).inside rfl rfl
  | .whileLoop test body =>
    have hbody := body.notes_normal false (test.normal root p).2
    rw [← statements_single] at hbody
    exact ((test.notes_normal p).trans hbody).inside rfl rfl
  | .block stmts =>
    exact (Stmt.notes_listNormal top stmts p).single
  | .ret arg =>
    exact (Expr.notes_optNormal arg p).inside rfl rfl
  | .func f =>
    have hfunc (q : Progress) : Notes root q (f.normal root q).2 (.func f :: f.statements)
        (.func (f.normal root q).1 :: (f.normal root q).1.statements) :=
      (f.notes_normal q).cons fun _ hx => nomatch hx
    unfold Stmt.normal
    cases hname : f.name with
    | none =>
      exact (hfunc p).single
    | some id =>
      refine ((hfunc _).after fun x hx => (noted_addFunction hx).imp_right fun hx => ?_).single
      obtain ⟨body, hbody, -⟩ := Func.normal_eq root f (note (fun s => s.addFunction id.name) p).2
      have hkept : x ∈ (f.normal root (note (fun s => s.addFunction id.name) p).2).1.name.toList.map
          Ident.name := by
        rw [hbody, hname]
        exact mem_singleton.2 hx
      exact mem_keptIn_cons.2 (.inl hkept)
  | .breakLoop | .continueLoop | .empty => exact (Notes.refl p).cons fun _ hx => nomatch hx

theorem Stmt.notes_listNormal (top : Bool) (stmts : List Stmt) (p : Progress) :
    Notes root p (Stmt.listNormal root top stmts p).2 (Stmt.listStatements stmts)
      (Stmt.listStatements (Stmt.listNormal root top stmts p).1) := by
  match stmts with
  | [] => exact .refl p
  | s :: rest =>
    show Notes root p _ _ (Stmt.listStatements (_ ++ _))
    rw [Stmt.listStatements_append]
    exact (s.notes_normal top p).trans (Stmt.notes_listNormal top rest _)

theorem Declarator.notes_pieces (top : Bool) (kind : DeclKind) (ds : List Declarator)
    (p : Progress) :
    Notes root p (pieces root top kind ds p).2 (listStatements kind ds)
      ((pieces root top kind ds p).1.flatMap (Piece.statements kind)) := by
  match ds with
  | [] => exact .refl p
  | ⟨target, none, pos⟩ :: rest =>
    refine (Declarator.notes_pieces top kind rest p).cons fun x hx => ?_
    exact .inl hx
  | ⟨target, some init, pos⟩ :: rest =>
    have hsrc : listStatements kind (⟨target, some init, pos⟩ :: rest) =
        listStatements kind [⟨target, some init, pos⟩] ++
          listStatements kind rest := listStatements_append kind [_] rest
    rw [pieces_cons, hsrc]
    exact (notes_piece top kind target pos (fun p => init.notes_normal p) p).trans
      (Declarator.notes_pieces top kind rest _)

theorem Declarator.notes_headerNormal (ds : List Declarator) (p : Progress) :
    Notes root p (headerNormal root ds p).2 (headerStatements ds)
      (headerStatements (headerNormal root ds p).1) := by
  match ds with
  | [] => exact .refl p
  | ⟨_, init, _⟩ :: rest =>
    exact (Expr.notes_optNormal init p).trans (Declarator.notes_headerNormal rest _)

end

theorem FuncBody.notes_normal (body : FuncBody) (p : Progress) :
    Notes root p (body.normal root p).2 body.statements (body.normal root p).1.statements := by
  cases body with
  | block stmts => exact Stmt.notes_listNormal true stmts p
  | expr e => exact e.notes_normal p

end Trees

/-- **The first stage** keeps every name that it notes, and every name that a declaration of
the script has is declared or kept. -/
theorem Program.notes_normal (p : Program) :
    (∀ x, Noted (p.normal {}).2 x → x ∈ keptIn p.rootParam (p.normal {}).1.root.body.statements) ∧
    ∀ x ∈ declaredIn p.root.body.statements, x ∈ declaredIn (p.normal {}).1.root.body.statements ∨
        x ∈ keptIn p.rootParam (p.normal {}).1.root.body.statements := by
  have h : Notes p.rootParam { scopes := p.scoped {} } _ _ _ := p.root.body.notes_normal _
  have hnone (x : String) : ¬ Noted { scopes := p.scoped {} } x := by
    rintro (hx | hx) <;> cases hx
  exact ⟨fun x hx => (h.noted x hx).resolve_left (hnone x), h.declared⟩

end BarScript

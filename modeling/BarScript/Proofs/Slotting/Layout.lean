import BarScript.Proofs.Naming.Passes
import BarScript.Proofs.Slotting.Flat

/-!
# Where a slotted script keeps its names

A flat script and its slotted form are alike except for their names: what the
script keeps in a frame, the slotted form keeps in a slot, unless the name is read
off the context or counts a loop. A *layout* says for every open frame which names
it has and where the slotted form keeps each of them, and `Laid` relates a tree to
its slotted form under a layout. It does so without the compiler: that slotting
gives a tree that is laid out is a theorem below, and what running the two trees
does is read off the relation alone.

A name is laid out only while it is known, so the relation also says that no slot
is read before its declaration.
-/

namespace BarScript

open Slotted Naming List

namespace Slotting

/-! ## Layouts -/

/-- Where a slotted script keeps a name of the script. -/
inductive Home where
  /-- It is the context itself. -/
  | context
  /-- In the frame in which the script keeps it. -/
  | frame
  | slot (b : Binding)

abbrev Names := List (String × Home)

/-- The names of the open frames, innermost first. -/
abbrev Layout := List Names

/-- Where a name is kept, by the innermost frame that has it. -/
def home? (T : Layout) (x : String) : Option Home :=
  T.findSome? fun names => names.lookup x

@[simp] theorem home?_nil_cons (T : Layout) (x : String) : home? ([] :: T) x = home? T x := rfl

theorem home?_cons_cons (y : String) (h : Home) (L : Names) (T : Layout) (x : String) :
    home? (((y, h) :: L) :: T) x = if x = y then some h else home? (L :: T) x := by
  unfold home?
  rw [findSome?_cons, findSome?_cons, lookup_cons]
  by_cases hxy : x = y
  · simp [hxy]
  · simp [hxy, beq_false_of_ne hxy]

/-! ## Trees that are laid out -/

variable (c : Setting)

/-- Assigned names: those that a frame or a slot keeps. -/
inductive Place (T : Layout) : Expr → Expr → Prop
  | frame {id : Ident} (h : home? T id.name = some .frame) : Place T (.ident id) (.ident id)
  | slot {id : Ident} (h : home? T id.name = some (.slot b)) : Place T (.ident id) (c.current b)

mutual

/-- Expressions, with the current values of slots in the places of names. -/
inductive Laid (T : Layout) : Expr → Expr → Prop
  | number (x : Float) : Laid T (.number x) (.number x)
  | str (s : String) : Laid T (.str s) (.str s)
  | bool (b : Bool) : Laid T (.bool b) (.bool b)
  | null : Laid T .null .null
  | undefined : Laid T .undefined .undefined
  | name {id : Ident} (h : ∀ b, home? T id.name ≠ some (.slot b)) : Laid T (.ident id) (.ident id)
  | slot {id : Ident} (h : home? T id.name = some (.slot b)) : Laid T (.ident id) (c.current b)
  | unary (h : Laid T e e') : Laid T (.unary op e) (.unary op e')
  | update (h : Place c T t t') : Laid T (.update op first t) (.update op first t')
  | binary (hl : Laid T l l') (hr : Laid T r r') : Laid T (.binary op l r) (.binary op l' r')
  | logical (hl : Laid T l l') (hr : Laid T r r') : Laid T (.logical op l r) (.logical op l' r')
  | conditional (ht : Laid T t t') (hl : Laid T l l') (hr : Laid T r r') :
    Laid T (.conditional t l r) (.conditional t' l' r')
  | assign {op : AssignOp} {t t' v v' : Expr} (ht : Place c T t t') (hv : Laid T v v') :
    Laid T (.assign op t v) (.assign op t' v')
  | array (h : LaidList T es es') : Laid T (.array es) (.array es')
  | object (h : LaidProps T ps ps') : Laid T (.object ps) (.object ps')

inductive LaidList (T : Layout) : List Expr → List Expr → Prop
  | nil : LaidList T [] []
  | cons (h : Laid T e e') (hs : LaidList T es es') : LaidList T (e :: es) (e' :: es')

inductive LaidProps (T : Layout) : List (String × Expr) → List (String × Expr) → Prop
  | nil : LaidProps T [] []
  | cons (h : Laid T e e') (hs : LaidProps T ps ps') : LaidProps T ((k, e) :: ps) ((k, e') :: ps')

end

inductive LaidOpt (T : Layout) : Option Expr → Option Expr → Prop
  | none : LaidOpt T none none
  | some (h : Laid c T e e') : LaidOpt T (some e) (some e')

/-- Initial values. One that is missing is written out. -/
inductive LaidInit (T : Layout) : Option Expr → Expr → Prop
  | none : LaidInit T none .undefined
  | some (h : Laid c T e e') : LaidInit T (some e) e'

/-- Names read off the data, added to those of a frame. -/
def readNames (L : Names) : List (String × Ident) → Names
  | [] => L
  | (_, id) :: rest => readNames ((id.name, .frame) :: L) rest

/-- Declarators: `L` are the names of the frame before, and the last index those
after. A declared name is new and gets a slot of its own; names read off the data
of the context stay. -/
inductive LaidDecls (T : Layout) : Names → DeclKind → List Declarator → List Stmt → Names → Prop
  | nil : LaidDecls T L kind [] [] L
  | slot {L L' : Names} {kind : DeclKind} {id : Ident} {init : Option Expr} {init' : Expr}
    {pos : Position} {rest : List Declarator} {stmts : List Stmt} {b : Binding}
    (hinit : LaidInit c (L :: T) init init') (hnew : home? (L :: T) id.name = none)
    (hb : b.slot = Scopes.slotName b.scope b.serial id.name)
    (hrest : LaidDecls T ((id.name, .slot b) :: L) kind rest stmts L') :
    LaidDecls T L kind (⟨.ident id, init, pos⟩ :: rest) (c.declare b init' :: stmts) L'
  | read {L L' : Names} {kind : DeclKind} {props : List (String × Ident)} {init : Expr}
    {pos : Position} {rest : List Declarator} {stmts : List Stmt}
    (hinit : init.isData c.root = true) (hnew : ∀ p ∈ props, home? (L :: T) p.2.name = none)
    (hnodup : (props.map fun p => p.2.name).Nodup)
    (hrest : LaidDecls T (readNames L props) kind rest stmts L') :
    LaidDecls T L kind (⟨.object props, some init, pos⟩ :: rest)
      (.decl ⟨kind, [⟨.object props, some init, pos⟩]⟩ :: stmts) L'

mutual

/-- Statements, each of which may become several. -/
inductive LaidStmt : Layout → Names → Stmt → List Stmt → Names → Prop
  | decl (h : LaidDecls c T L kind ds stmts L') : LaidStmt T L (.decl ⟨kind, ds⟩) stmts L'
  | expr (h : Laid c (L :: T) e e') : LaidStmt T L (.expr e) [.expr e'] L
  | branch (ht : Laid c (L :: T) t t')
    (hb : LaidBlock (L :: T) body body') (ha : LaidAlternate (L :: T) alternate alternate') :
    LaidStmt T L (.branch t (.block body) alternate) [.branch t' (.block body') alternate'] L
  | forLoop {id : Ident} (he : Laid c ([] :: L :: T) e e') (hnew : home? (L :: T) id.name = none)
    (ht : LaidOpt c ([(id.name, .frame)] :: L :: T) test test')
    (hu : LaidOpt c ([(id.name, .frame)] :: L :: T) update update')
    (hb : LaidBlock ([(id.name, .frame)] :: L :: T) body body') :
    LaidStmt T L (.forLoop (some (.decl ⟨kind, [⟨.ident id, some e, pos⟩]⟩)) test update
      (.block body))
      [.forLoop (some (.decl ⟨kind, [⟨.ident id, some e', pos⟩]⟩)) test' update' (.block body')] L
  | whileLoop (ht : Laid c (L :: T) t t') (hb : LaidBlock (L :: T) body body') :
    LaidStmt T L (.whileLoop t (.block body)) [.whileLoop t' (.block body')] L
  | ret (h : LaidOpt c (L :: T) arg arg') : LaidStmt T L (.ret arg) [.ret arg'] L
  | breakLoop : LaidStmt T L .breakLoop [.breakLoop] L
  | continueLoop : LaidStmt T L .continueLoop [.continueLoop] L

inductive LaidStmts : Layout → Names → List Stmt → List Stmt → Names → Prop
  | nil : LaidStmts T L [] [] L
  | cons (h : LaidStmt T L s stmts L') (hs : LaidStmts T L' rest stmts' L'') :
    LaidStmts T L (s :: rest) (stmts ++ stmts') L''

inductive LaidBlock : Layout → List Stmt → List Stmt → Prop
  | block (h : LaidStmts T [] stmts stmts' L) : LaidBlock T stmts stmts'

inductive LaidAlternate : Layout → Option Stmt → Option Stmt → Prop
  | none : LaidAlternate T none none
  | some (h : LaidBlock T stmts stmts') :
    LaidAlternate T (some (.block stmts)) (some (.block stmts'))

end

/-! ## Scopes that know a layout -/

variable {c}

/-- What a scope says of a name, and where the layout keeps it. -/
inductive Found : Option Resolution → Option Home → Prop
  | unknown : Found none none
  | loop : Found (some .loop) (some .frame)
  | read : Found (some .contextBound) (some .frame)
  | slot (b : Binding) : Found (some (.slot b)) (some (.slot b))

variable (c) in
/-- Open scopes that know the names of a layout. -/
structure Knows (F : List Frame) (T : Layout) : Prop where
  root : home? T c.root = some .context
  found : ∀ x, x ≠ c.root → Found (F.findSome? fun f => f.resolve? x) (home? T x)
  /-- No slot takes the name of a number. -/
  number : ∀ x b, home? T x = some (.slot b) → isNumberName x = false
  outside : ∀ f ∈ F, f.kind ≠ .function

set_option linter.unusedSectionVars false -- `hstrict` is used through other members

section Exprs

variable {s : Scopes} {F : List Frame} {T : Layout}

/-- What the scopes say of a name, if they know a layout. -/
theorem Knows.resolve (hk : Knows c F T) (hx : x ≠ c.root) (hr : Refers s c F x r) :
    (∃ b, r = .slot b ∧ home? T x = some (.slot b)) ∨
      (∀ b, r ≠ .slot b) ∧ (∀ b, home? T x ≠ some (.slot b)) ∧
        (r = .loop → home? T x = some .frame) := by
  unfold Refers lookIn Scopes.resolve? at hr
  have hfound := hk.found x hx
  generalize F.findSome? (fun f => f.resolve? x) = o, home? T x = h at hr hfound ⊢
  cases hfound with
  | slot b => exact .inl ⟨b, by grind, rfl⟩
  | loop => exact .inr ⟨by grind, nofun, fun _ => rfl⟩
  | read => exact .inr ⟨by grind, nofun, by grind⟩
  | unknown =>
    -- what holds for the script as a whole is neither a slot nor counts a loop
    dsimp only at hr
    exact .inr ⟨by grind, nofun, by grind⟩

theorem use_laid (hk : Knows c F T) {id : Ident} (hid : id.name ≠ c.root)
    (h : Uses s c F .value id e') : Laid c T (.ident id) e' := by
  cases h with
  | current h =>
    obtain ⟨_, ⟨⟩, hb⟩ | ⟨hr, -⟩ := hk.resolve hid (.inl h)
    · exact .slot hb
    · exact absurd rfl (hr _)
  | kept h =>
    obtain hnumber | ⟨r, hr, hslot⟩ := h
    · exact .name fun b hb => nomatch (hk.number _ b hb).symm.trans hnumber
    · obtain ⟨b, rfl, -⟩ | ⟨-, hname, -⟩ := hk.resolve hid hr
      · exact absurd rfl (hslot b)
      · exact .name hname

theorem target_laid (hstrict : c.options.unsupported = .strict) (hk : Knows c F T) {t : Expr}
    (ht : t.isFlatName c.root = true) (h : SlotsTarget s c F t t' l) : Place c T t t' := by
  cases h with
  | name ha h =>
    have hid := bne_iff_ne.1 ht
    cases use_laid hk hid h with
    | slot hslot => exact .slot hslot
    | name hname =>
      obtain hloop | ⟨b, hb⟩ := ha
      · obtain ⟨_, hslot, -⟩ | ⟨-, -, hframe⟩ := hk.resolve hid (.inl hloop)
        · cases hslot
        · exact .frame (hframe rfl)
      · obtain ⟨_, ⟨⟩, hb⟩ | ⟨hr, -⟩ := hk.resolve hid (.inl hb)
        · exact absurd hb (hname b)
        · exact absurd rfl (hr b)
  | raw h => exact nomatch hstrict.symm.trans h
  | _ => cases ht

variable (hstrict : c.options.unsupported = .strict)

include hstrict

mutual

/-- **Slotting lays expressions out.** -/
theorem expr_laid (h : Slots s c F role e e' l) (hrole : role = .value) (hk : Knows c F T)
    (he : e.isFlat c.root = true) : Laid c T e e' := by
  match h with
  | .atom h =>
    match e with
    | .number x => exact .number x
    | .str s => exact .str s
    | .bool b => exact .bool b
    | .null => exact .null
    | .undefined => exact .undefined
  | .name h =>
    subst hrole
    exact use_laid hk (bne_iff_ne.1 he) h
  | .unary h => exact .unary (expr_laid h rfl hk he)
  | .update h => exact .update (target_laid hstrict hk he h)
  | .binary hl hr =>
    obtain ⟨hleft, hright⟩ := Bool.and_eq_true_iff.1 he
    exact .binary (expr_laid hl rfl hk hleft) (expr_laid hr rfl hk hright)
  | .logical hl hr =>
    obtain ⟨hleft, hright⟩ := Bool.and_eq_true_iff.1 he
    exact .logical (expr_laid hl rfl hk hleft) (expr_laid hr rfl hk hright)
  | .conditional ht hc ha =>
    obtain ⟨htc, halternate⟩ := Bool.and_eq_true_iff.1 he
    obtain ⟨htest, hconsequent⟩ := Bool.and_eq_true_iff.1 htc
    exact .conditional (expr_laid ht rfl hk htest) (expr_laid hc rfl hk hconsequent)
      (expr_laid ha rfl hk halternate)
  | .assign ht hv =>
    obtain ⟨htarget, hvalue⟩ := Bool.and_eq_true_iff.1 he
    exact .assign (target_laid hstrict hk htarget ht) (expr_laid hv rfl hk hvalue)
  | .array h => exact .array (list_laid h hk he)
  | .object h => exact .object (props_laid h hk he)
  | .member _ | .index _ _ | .spaceCall _ _ _ | .call _ _ _ | .func _ => cases he

theorem list_laid (h : SlotsList s c F es es' l)
    (hk : Knows c F T) (he : Expr.listFlat c.root es = true) : LaidList c T es es' := by
  match h with
  | .nil => exact .nil
  | .cons h hs =>
    obtain ⟨he, hrest⟩ := Bool.and_eq_true_iff.1 he
    exact .cons (expr_laid h rfl hk he) (list_laid hs hk hrest)

theorem props_laid (h : SlotsProps s c F ps ps' l) (hk : Knows c F T)
    (he : Expr.propFlat c.root ps = true) :
    LaidProps c T ps ps' := by
  match h with
  | .nil => exact .nil
  | .cons h hs =>
    obtain ⟨he, hrest⟩ := Bool.and_eq_true_iff.1 he
    exact .cons (expr_laid h rfl hk he) (props_laid hs hk hrest)

end

theorem opt_laid (h : SlotsOpt s c F e? e?' l)
    (hk : Knows c F T) (he : Expr.optFlat c.root e? = true) : LaidOpt c T e? e?' := by
  cases h with
  | none => exact .none
  | some h => exact .some (expr_laid hstrict h rfl hk he)

theorem init_laid (h : SlotsInit s c F e? e' l)
    (hk : Knows c F T) (he : Expr.optFlat c.root e? = true) : LaidInit c T e? e' := by
  cases h with
  | none => exact .none
  | some h => exact .some (expr_laid hstrict h rfl hk he)
  | element => cases he

end Exprs

/-! ## Scopes that change -/

namespace Knows

variable {F : List Frame} {T : Layout} {L : Names} {f : Frame} {x : String}

theorem enter (hk : Knows c F T) (kind : ScopeKind) (hkind : kind ≠ .function) (serial : Nat) :
    Knows c ({ kind, serial } :: F) T := { hk with
  outside := forall_mem_cons.2 ⟨hkind, hk.outside⟩ }

theorem frame (hk : Knows c F T) : Knows c F ([] :: T) where
  root := hk.root
  found := hk.found
  number := hk.number
  outside := hk.outside

theorem add (hk : Knows c (f :: F) (L :: T)) (hnew : home? (L :: T) x = none) {g : Frame}
    (hother : ∀ y, y ≠ x → g.resolve? y = f.resolve? y)
    (hx : f.resolve? x = none → g.resolve? x = some r) (hkind : g.kind = f.kind)
    (hr : Found (some r) (some h)) (hnumber : isNumberName x = false) :
    Knows c (g :: F) (((x, h) :: L) :: T) where
  root := by
    have hroot : c.root ≠ x := by
      rintro rfl
      rw [hk.root] at hnew
      cases hnew
    rw [home?_cons_cons, if_neg hroot]
    exact hk.root
  found y hy := by
    rw [home?_cons_cons]
    have hfound := hk.found y hy
    rw [findSome?_cons] at hfound ⊢
    by_cases hyx : y = x
    · subst hyx
      rw [hnew] at hfound
      rw [if_pos rfl]
      have hnone : f.resolve? y = none := by
        cases hf : f.resolve? y with
        | none => rfl
        | some r' =>
          rw [hf] at hfound
          cases hfound
      rw [hx hnone]
      exact hr
    · rw [if_neg hyx, hother y hyx]
      exact hfound
  number y b hy := by
    rw [home?_cons_cons] at hy
    by_cases hyx : y = x
    · exact hyx ▸ hnumber
    · rw [if_neg hyx] at hy
      exact hk.number y b hy
  outside := by
    obtain ⟨hf, hF⟩ := forall_mem_cons.1 hk.outside
    exact forall_mem_cons.2 ⟨hkind ▸ hf, hF⟩

theorem declare (hk : Knows c F (L :: T)) (hF : F ≠ []) (hnew : home? (L :: T) x = none)
    (hnumber : isNumberName x = false) {b : Binding} (hb : b.name = x) :
    Knows c (declareIn F b) (((x, .slot b) :: L) :: T) := by
  subst hb
  cases F with
  | nil => exact absurd rfl hF
  | cons f F =>
    refine hk.add hnew (fun y hy => ?_) (fun hx => ?_) rfl (.slot b) hnumber
    · unfold Frame.resolve?
      rw [lookup_cons, beq_false_of_ne hy]
    · obtain ⟨hloop, hbound, -⟩ := Frame.resolve?_eq_none.1 hx
      unfold Frame.resolve?
      simp [hloop, hbound]

theorem hand (hk : Knows c F (L :: T)) (hF : F ≠ []) (hnew : home? (L :: T) x = none)
    (hnumber : isNumberName x = false) :
    Knows c (inner (fun f => { f with bound := f.bound.insert x }) F)
      (((x, .frame) :: L) :: T) := by
  cases F with
  | nil => exact absurd rfl hF
  | cons f F =>
    refine hk.add hnew (fun y hy => ?_) (fun hx => ?_) rfl .read hnumber
    · unfold Frame.resolve?
      simp [hy]
    · obtain ⟨hloop, -⟩ := Frame.resolve?_eq_none.1 hx
      unfold Frame.resolve?
      simp [hloop]

theorem count (hk : Knows c F (L :: T)) (hF : F ≠ []) {id : Ident}
    (hnew : home? (L :: T) id.name = none) (hnumber : isNumberName id.name = false) :
    Knows c (countIn F [id]) (((id.name, .frame) :: L) :: T) := by
  cases F with
  | nil => exact absurd rfl hF
  | cons f F =>
    refine hk.add hnew (fun y hy => ?_) (fun _ => ?_) rfl .loop hnumber
    · unfold Frame.resolve?
      simp [hy]
    · unfold Frame.resolve?
      simp

end Knows

/-! ## Statements -/

/-- Names that may be declared one after the other: none of them is known, and none
stands for a number. -/
structure New (T : Layout) (names : List String) : Prop where
  nodup : names.Nodup
  unknown : ∀ x ∈ names, home? T x = none
  number : ∀ x ∈ names, isNumberName x = false

namespace New

variable {T T' : Layout} {a b : List String}

theorem left (h : New T (a ++ b)) : New T a where
  nodup := (nodup_append.1 h.nodup).1
  unknown x hx := h.unknown x (mem_append_left b hx)
  number x hx := h.number x (mem_append_left b hx)

theorem frame (h : New T a) : New ([] :: T) a where
  nodup := h.nodup
  unknown := h.unknown
  number := h.number

/-- The rest of new names, once the first of them are declared. -/
theorem right (h : New T (a ++ b)) (hT : ∀ x, x ∉ a → home? T' x = home? T x) : New T' b where
  nodup := (nodup_append.1 h.nodup).2.1
  unknown x hx := by
    have hxa : x ∉ a := fun hxa => (nodup_append.1 h.nodup).2.2 x hxa x hx rfl
    rw [hT x hxa]
    exact h.unknown x (mem_append_right a hx)
  number x hx := h.number x (mem_append_right a hx)

end New

variable (c) in
/-- What declaring names in the innermost scope comes to: the scopes `F` and the names `L`
are those afterwards. -/
structure Declares (T : Layout) (L : Names) (names : List String) (F : List Frame)
    (L' : Names) : Prop where
  ne_nil : F ≠ []
  knows : Knows c F (L' :: T)
  other : ∀ x, x ∉ names → home? (L' :: T) x = home? (L :: T) x

section Stmts

variable {s : Scopes} {F F' : List Frame} {T : Layout} {L L' L'' : Names} {l : Log}

theorem Declares.refl (hF : F ≠ []) (hk : Knows c F (L :: T)) : Declares c T L names F L :=
  ⟨hF, hk, fun _ _ => rfl⟩

theorem Declares.trans (h : Declares c T L a F L')
    (h' : Declares c T L' b F' L'') : Declares c T L (a ++ b) F' L'' := { h' with
  other x hx := by
    rw [mem_append, not_or] at hx
    rw [h'.other x hx.2, h.other x hx.1] }

/-- A change of the innermost scope that declares one name. -/
theorem Declares.one (hF : F ≠ []) (hk : Knows c (inner g F) (((x, h) :: L) :: T)) :
    Declares c T L [x] (inner g F) ((x, h) :: L) where
  ne_nil := inner_ne_nil hF
  knows := hk
  other y hy := by
    rw [mem_singleton] at hy
    rw [home?_cons_cons, if_neg hy]

/-- Names read off the data, handed to the innermost scope. -/
theorem Declares.handTo {props : List (String × Ident)} (hF : F ≠ []) (hk : Knows c F (L :: T))
    (hnew : New (L :: T) (props.map fun p => p.2.name)) :
    Declares c T L (props.map fun p => p.2.name) (handTo F (props.map Prod.snd))
      (readNames L props) := by
  induction props generalizing F L with
  | nil => exact .refl hF hk
  | cons prop rest ih =>
    obtain ⟨key, id⟩ := prop
    have hk' := hk.hand hF (hnew.unknown id.name mem_cons_self) (hnew.number id.name mem_cons_self)
    have hone := Declares.one hF hk'
    exact hone.trans (ih hone.ne_nil hk' (New.right (a := [id.name]) hnew hone.other))

variable (hstrict : c.options.unsupported = .strict)

include hstrict

theorem decls_laid {F F' : List Frame} {kind : DeclKind} {ds : List Declarator}
    {stmts : List Stmt} {l : Log} {L : Names} (h : SlotsDecls s c F kind ds stmts F' l)
    (hF : F ≠ [])
    (hd : ∀ d ∈ ds, d.isFlat c.root = true) (hk : Knows c F (L :: T))
    (hnew : New (L :: T) (Declarator.listDeclared ds)) :
    ∃ L', Declares c T L (Declarator.listDeclared ds) F' L' ∧ LaidDecls c T L kind ds stmts L' := by
  match ds, h with
  | _, .nil => exact ⟨L, .refl hF hk, .nil⟩
  | ⟨target, _, _⟩ :: _, .read hread hs =>
    obtain ⟨hd, hrest⟩ := forall_mem_cons.1 hd
    have hnew : New (L :: T) (target.names ++ _) := hnew
    match target with
    | .ident id => exact nomatch (Expr.isContextRead_of_isFlat hd).symm.trans hread
    | .object props =>
      have hnames : (Pattern.object props).names = props.map fun p => p.2.name := by
        simp [Pattern.names, Pattern.boundNames]
      rw [hnames] at hnew
      have hdecl := Declares.handTo hF hk hnew.left
      obtain ⟨L', hdecls, hlaid⟩ := decls_laid hs hdecl.ne_nil hrest hdecl.knows
        (hnew.right hdecl.other)
      refine ⟨L', ?_, .read hd (fun p hp => hnew.left.unknown _ (mem_map_of_mem hp))
        hnew.left.nodup hlaid⟩
      have hboth := hdecl.trans hdecls
      rw [← hnames] at hboth
      exact hboth
  | ⟨.ident id, _, _⟩ :: _, .slot _ hi hs =>
    obtain ⟨hd, hrest⟩ := forall_mem_cons.1 hd
    have hnew : New (L :: T) ([id.name] ++ _) := hnew
    have hid := hnew.unknown id.name mem_cons_self
    have hdecl := Declares.one hF
      (hk.declare hF hid (hnew.number id.name mem_cons_self) (b := slotIn F id.name kind.bucket)
        rfl)
    obtain ⟨L', hdecls, hlaid⟩ := decls_laid hs hdecl.ne_nil hrest hdecl.knows
      (hnew.right hdecl.other)
    exact ⟨L', hdecl.trans hdecls, .slot (init_laid hstrict hi hk hd) hid rfl hlaid⟩
  | _, .raw h _ _ _ => exact nomatch hstrict.symm.trans h

omit hstrict in
theorem header_flat (h : SlotsHeader s c F init init' F' l)
    (hinit : ForInit.optFlat c.root init = true) :
    ∃ kind id e e' pos l, init = some (.decl ⟨kind, [⟨.ident id, some e, pos⟩]⟩) ∧
      init' = some (.decl ⟨kind, [⟨.ident id, some e', pos⟩]⟩) ∧ F' = countIn F [id] ∧
        e.isFlat c.root = true ∧ Slots s c F .value e e' l := by
  match init, hinit, h with
  | some (.decl ⟨kind, [⟨.ident id, some e, pos⟩]⟩), hinit, .decl (.cons (.some he) .nil) =>
    exact ⟨kind, id, e, _, pos, _, rfl, rfl, rfl, hinit, he⟩

mutual

/-- **Slotting lays statements out.** -/
theorem stmt_laid {F F' : List Frame} {inside : Bool} {t : Stmt} {stmts : List Stmt} {l : Log}
    (h : SlotsStmt s c F inside t stmts F' l) (hF : F ≠ []) (ht : t.isFlat c.root = true)
    {T : Layout} {L : Names} (hk : Knows c F (L :: T)) (hnew : New (L :: T) t.declared) :
    ∃ L', Declares c T L t.declared F' L' ∧ LaidStmt c T L t stmts L' := by
  match h with
  | .decl h =>
    have hd := all_eq_true.1 (Bool.and_eq_true_iff.1 ht).2
    obtain ⟨L', hdecl, hlaid⟩ := decls_laid hstrict h hF hd hk hnew
    exact ⟨L', hdecl, .decl hlaid⟩
  | .expr h => exact ⟨L, .refl hF hk, .expr (expr_laid hstrict h rfl hk ht)⟩
  | .branch hc hs ha =>
    obtain ⟨htc, halternate⟩ := Bool.and_eq_true_iff.1 ht
    obtain ⟨htest, hconsequent⟩ := Bool.and_eq_true_iff.1 htc
    obtain ⟨body, rfl, hbody⟩ := block_laid hs rfl (cons_ne_nil _ _) hconsequent
      (hk.enter .branch nofun _).frame hnew.left.frame
    exact ⟨L, .refl hF hk, .branch (expr_laid hstrict hc rfl hk htest) hbody
      (alternate_laid ha halternate hk (hnew.right fun _ _ => rfl))⟩
  | .forLoop (n := n) _ hi hc hu hs =>
    obtain ⟨hitu, hb⟩ := Bool.and_eq_true_iff.1 ht
    obtain ⟨hit, hupdate⟩ := Bool.and_eq_true_iff.1 hitu
    obtain ⟨hinit, htest⟩ := Bool.and_eq_true_iff.1 hit
    have hblock := fun hF (T : Layout) => block_laid hs rfl hF hb (T := T)
    obtain ⟨kind, id, e, e', pos, _, rfl, rfl, rfl, hflat, he⟩ := header_flat hi hinit
    have hnew : New (L :: T) ([id.name] ++ _) := hnew
    have hid := hnew.unknown id.name mem_cons_self
    have hopen := hk.enter .forLoop nofun n
    have hk' := hopen.frame.count (cons_ne_nil _ _) hid (hnew.number id.name mem_cons_self)
    have hnew' : New ([(id.name, .frame)] :: L :: T) _ :=
      hnew.right fun x hx => by rw [home?_cons_cons, if_neg (mem_singleton.not.1 hx)]; rfl
    obtain ⟨body, rfl, hbody⟩ := hblock (cons_ne_nil _ _) _ hk'.frame hnew'.frame
    exact ⟨L, .refl hF hk, .forLoop (expr_laid hstrict he rfl hopen.frame hflat) hid
      (opt_laid hstrict hc hk' htest) (opt_laid hstrict hu hk' hupdate) hbody⟩
  | .rawLoop h _ => exact nomatch hstrict.symm.trans h
  | .whileLoop (n := n) hc hs =>
    obtain ⟨htest, hb⟩ := Bool.and_eq_true_iff.1 ht
    have hopen := hk.enter .whileLoop nofun n
    obtain ⟨body, rfl, hbody⟩ := block_laid hs rfl (cons_ne_nil _ _) hb hopen.frame (New.frame hnew)
    exact ⟨L, .refl hF hk, .whileLoop (expr_laid hstrict hc rfl hopen htest) hbody⟩
  | .ret h =>
    have houtside : F.any (fun f => f.kind == .function) = false := by
      simpa using hk.outside
    rw [houtside]
    exact ⟨L, .refl hF hk, .ret (.some (expr_laid hstrict h rfl hk ht))⟩
  | .step (t := t) h =>
    match t with
    | .ret none => exact ⟨L, .refl hF hk, .ret .none⟩
    | .breakLoop => exact ⟨L, .refl hF hk, .breakLoop⟩
    | .continueLoop => exact ⟨L, .refl hF hk, .continueLoop⟩
  | .block _ | .func _ => cases ht

theorem block_laid {F F' : List Frame} {inside : Bool} {t : Stmt} {stmts : List Stmt} {l : Log}
    (h : SlotsStmt s c F inside t stmts F' l) (hinside : inside = true) (hF : F ≠ [])
    (ht : t.isFlatBlock c.root = true) {T : Layout} (hk : Knows c F ([] :: T))
    (hnew : New ([] :: T) t.declared) : ∃ body, t = .block body ∧ LaidBlock c T body stmts := by
  match h with
  | .block hs =>
    subst hinside
    obtain ⟨L', -, hlaid⟩ := stmts_laid hs hF ht hk hnew
    exact ⟨_, rfl, .block hlaid⟩
  | .step (t := .empty) _ | .decl _ | .expr _ | .branch _ _ _ | .forLoop _ _ _ _ _ | .rawLoop _ _
  | .whileLoop _ _ | .ret _ | .func _ | .step (t := .ret none) _ | .step (t := .breakLoop) _
  | .step (t := .continueLoop) _ => cases ht

theorem alternate_laid {F : List Frame} {t? t?' : Option Stmt} {l : Log}
    (h : SlotsAlternate s c F t? t?' l) (ht : Stmt.optFlatBlock c.root t? = true) {T : Layout}
    (hk : Knows c F T) (hnew : New T (Stmt.optDeclared t?)) : LaidAlternate c T t? t?' := by
  match h with
  | .none => exact .none
  | .some h =>
    obtain ⟨body, rfl, hbody⟩ := block_laid h rfl (cons_ne_nil _ _) ht
      (hk.enter .otherwise nofun _).frame (New.frame hnew)
    exact .some hbody

theorem stmts_laid {F F' : List Frame} {ts ts' : List Stmt} {l : Log}
    (h : SlotsStmts s c F ts ts' F' l) (hF : F ≠ []) (ht : Stmt.listFlat c.root ts = true)
    {T : Layout} {L : Names} (hk : Knows c F (L :: T))
    (hnew : New (L :: T) (Stmt.listDeclared ts)) :
    ∃ L', Declares c T L (Stmt.listDeclared ts) F' L' ∧ LaidStmts c T L ts ts' L' := by
  match h with
  | .nil => exact ⟨L, .refl hF hk, .nil⟩
  | .cons (t := t) h hs =>
    obtain ⟨ht, hrest⟩ := Bool.and_eq_true_iff.1 ht
    have hnew : New (L :: T) (t.declared ++ _) := hnew
    obtain ⟨L', hdecl, hlaid⟩ := stmt_laid h hF ht hk hnew.left
    obtain ⟨L'', hdecls, hlaids⟩ := stmts_laid hs hdecl.ne_nil hrest hdecl.knows
      (hnew.right hdecl.other)
    exact ⟨L'', hdecl.trans hdecls, .cons hlaid hlaids⟩

end

end Stmts

end Slotting

end BarScript

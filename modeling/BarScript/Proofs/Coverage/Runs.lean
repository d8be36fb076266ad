import BarScript.Proofs.Bars
import BarScript.Proofs.Coverage.Basic
import BarScript.Proofs.Regime.Library
import BarScript.Proofs.Simulation.Eval

/-!
# Names that are not found

A run that looks up a name in vain looks up one that the script uses out of cover. This is
shown for any names that may be missing, as long as they are among them. What is kept on the
way is that every function is grounded: all other names that it looks up are in the frames
it was made in. Frames are never taken away and only gain names, so a function that is
grounded stays so.

Work that leaves the frames alone keeps this by the general facts about regimes, with the
frames as they are. The constructs that open frames and fill them are treated one by one.
-/

namespace BarScript

open Machine List Regime Heap

namespace Coverage

variable {A : String → Prop} {α β : Type} {h h' : Heap} {env : Env} {ρ : List String} {v : Value}

/-! ## Grounded functions -/

variable (A) in
/-- What is asked of values: a function finds in its frames what it looks up, except for
names that may be missing. -/
def Grounded (h : Heap) : Value → Prop
  | .func f env => ∃ ρ, (∀ x ∈ f.uncovered isFreeName ρ, A x) ∧ h.Covers env ρ
  | _ => True

theorem Grounded.mono (hv : Grounded A h v) (hg : h.Grows h') : Grounded A h' v := by
  cases v with
  | func f env =>
    obtain ⟨ρ, hf, hρ⟩ := hv
    exact ⟨ρ, hf, hρ.mono hg⟩
  | _ => trivial

theorem grounded_of_not_func (hv : ∀ f env, v ≠ .func f env) : Grounded A h v := by
  cases v with
  | func f env => exact absurd rfl (hv f env)
  | _ => trivial

variable (A) in
/-- All functions on the heap of a machine are grounded. -/
def Kept (m : Machine) : Prop :=
  m.heap.Populated (Grounded A m.heap)

variable (A h) in
/-- The regime of machines with the frames of a heap. -/
def regime : Regime.Wide where
  inv m := m.heap.frames = h.frames ∧ m.heap.Populated (Grounded A h)
  fits := Grounded A h
  stores v := ¬ v.IsSeries ∧ Grounded A h v
  fails e _ := ∀ x, e = .error (.unknownIdentifier x) → A x
  fits_of_not_func := grounded_of_not_func
  fits_of_stores hv := hv.2
  stores_of_fits hs hv := ⟨hs, hv⟩
  history hm r v hv := ⟨hm.2.sound.history r v hv, hm.2.history r v hv⟩
  array hm r v hv := ⟨hm.2.sound.array r v hv, hm.2.array r v hv⟩
  object hm r v hv := ⟨hm.2.sound.object r v hv, hm.2.object r v hv⟩
  newHistory hm hs := ⟨hm.1, hm.2.newHistory hs⟩
  newArray hm hl := ⟨hm.1, hm.2.newArray hl⟩
  newObject hm hl := ⟨hm.1, hm.2.newObject (Dict.ordered_ofList _) fun v hv => by
    obtain ⟨p, hp, rfl⟩ := mem_map.1 (Dict.mem_values_ofList hv)
    exact hl p hp⟩
  modifyHistory {m r f} hm hf := ⟨hm.1, hm.2.modifyHistory <| hf _ fun v hv =>
    ⟨hm.2.sound.history r v hv, hm.2.history r v hv⟩⟩
  modifyArray {m r f} hm hf := ⟨hm.1, hm.2.modifyArray <| hf _ fun v hv =>
    ⟨hm.2.sound.array r v hv, hm.2.array r v hv⟩⟩
  insertField hm hv := ⟨hm.1, hm.2.insertField hv.1 hv.2⟩
  context hm _ := hm
  common _ he x hx := by
    cases hx
    exact he.elim
  unending _ _ _ hx := nomatch hx

/-! ## Work that finds its names -/

variable (A) in
/-- Work on a heap or on what becomes of it: it keeps functions grounded, the heap grows,
the results are of a kind, and only names that may be missing are looked up in vain. -/
def Finds (h : Heap) (Q : Heap → α → Prop) (x : Exec α) : Prop :=
  ∀ m, h.Grows m.heap → Kept A m → match x m with
    | .ok a m' => m.heap.Grows m'.heap ∧ Kept A m' ∧ Q m'.heap a
    | .error e _ => ∀ y, e = .error (.unknownIdentifier y) → A y

variable (A) in
/-- Work of whose results nothing is asked. -/
abbrev FindsAny (h : Heap) (x : Exec α) : Prop :=
  Finds A h (fun _ _ => True) x

variable {x : Exec α} {P Q : Heap → α → Prop} {T : Heap → β → Prop}

theorem finds_pure (hQ : ∀ h', h.Grows h' → Q h' a) : Finds A h Q (pure a) :=
  fun m hg hm => ⟨.refl _, hm, hQ m.heap hg⟩

theorem finds_fail {e : RuntimeError} (he : e.IsCommon) : Finds A h Q (Exec.fail e) := by
  intro m _ _ y hy
  cases hy
  exact he.elim

theorem Finds.bind (hx : Finds A h Q x)
    (hf : ∀ h' a, h.Grows h' → Q h' a → Finds A h' T (f a)) : Finds A h T (x >>= f) := by
  intro m hg hm
  have hend := hx m hg hm
  cases hxm : x m with
  | ok a m' =>
    rw [hxm] at hend
    obtain ⟨hg', hm', ha⟩ := hend
    have hrest := hf m'.heap a (hg.trans hg') ha m' (.refl _) hm'
    rw [Exec.bind_ok hxm]
    revert hrest
    cases f a m' with
    | ok b m'' => exact fun hrest => ⟨hg'.trans hrest.1, hrest.2⟩
    | error e m'' => exact id
  | error e m' =>
    rw [hxm] at hend
    rw [Exec.bind_error hxm]
    exact hend

theorem Finds.weaken (hx : Finds A h P x) (hPQ : ∀ h' a, h.Grows h' → P h' a → Q h' a) :
    Finds A h Q x := by
  intro m hg hm
  have hend := hx m hg hm
  revert hend
  cases x m with
  | ok a m' => exact fun hend => ⟨hend.1, hend.2.1, hPQ _ a (hg.trans hend.1) hend.2.2⟩
  | error e m' => exact id

/-- Work on a heap is work on what has become of it. -/
theorem Finds.later (hx : Finds A h Q x) (hg : h.Grows h') : Finds A h' Q x :=
  fun m hg' hm => hx m (hg.trans hg') hm

variable (env) in
theorem finds_forM {γ : Type} {l : List γ} {f : γ → Exec Unit} (N : γ → List String)
    (hf : ∀ a ∈ l, Finds A h (fun h' _ => h'.Covers env (N a)) (f a)) :
    Finds A h (fun h' _ => ∀ a ∈ l, h'.Covers env (N a)) (l.forM f) := by
  induction l generalizing h with
  | nil => exact finds_pure fun _ _ _ ha => nomatch ha
  | cons a l ih =>
    refine (hf a mem_cons_self).bind fun h' _ hg ha => ?_
    have hrest := ih fun b hb => (hf b (mem_cons_of_mem a hb)).later hg
    exact hrest.weaken fun h'' _ hg' hl => forall_mem_cons.2 ⟨ha.mono hg', hl⟩

/-- **Work that leaves the frames alone.** -/
theorem finds_work (hx : ∀ h', h.Grows h' → (regime A h').Keeps (Q h') x)
    (hQ : ∀ {h h' : Heap} {a}, h.Grows h' → Q h a → Q h' a) : Finds A h Q x := by
  intro m hg hm
  have hend := hx m.heap hg m ⟨rfl, hm⟩
  revert hend
  cases x m with
  | ok a m' =>
    intro hend
    have hg' : m.heap.Grows m'.heap := .of_frames hend.1.1
    exact ⟨hg', hend.1.2.imp fun _ hv => hv.mono hg', hQ hg' hend.2⟩
  | error e m' => exact fun hend => hend.2

theorem finds_value {x : Exec Value}
    (hx : ∀ h', h.Grows h' → (regime A h').Keeps (regime A h').fits x) :
    Finds A h (Grounded A) x :=
  finds_work hx fun hg hv => hv.mono hg

theorem finds_any (hx : ∀ h', (regime A h').KeepsAny x) : FindsAny A h x :=
  finds_work (fun h' _ => hx h') fun _ _ => trivial

theorem finds_heap (f : Heap → α) : FindsAny A h (Exec.heap f) :=
  finds_any fun _ => keeps_heap fun _ _ => trivial

theorem current_finds (hv : Grounded A h v) :
    Finds A h (fun h' w => ¬ w.IsSeries ∧ Grounded A h' w) (Exec.heap fun h => h.current v) :=
  finds_work (fun _ hg => keeps_current (hv.mono hg)) fun hg hw => ⟨hw.1, hw.2.mono hg⟩

/-! ## Names -/

theorem readName_finds {x : String} (hx : ∀ y ∈ (Expr.ident ⟨x, {}⟩).uncovered isFreeName ρ, A y)
    (hρ : h.Covers env ρ) : Finds A h (Grounded A) (readName env x) := by
  refine finds_value fun h' hg => readName_keeps env x (fun m v hm hv => ?_) ?_
  · obtain ⟨r, hr⟩ := mem_of_lookup? hv
    exact hm.2.frame r v hr
  · intro m hm hnone hfree y hy
    cases hy
    refine hx x ?_
    have hmiss : x ∉ ρ := fun hmem => by
      have hsome := isSome_lookup? (hρ.mono (hg.trans (.of_frames hm.1)) x hmem)
      rw [hnone] at hsome
      cases hsome
    rw [Expr.uncovered, if_neg (by simp [hmiss, isFreeName, hfree])]
    exact mem_singleton_self x

theorem kept_define (hm : Kept A m)
    (hv : Grounded A m.heap v) : Kept A { m with heap := m.heap.define r name v } := by
  have hg : m.heap.Grows (m.heap.define r name v) := grows_define name v
  exact Heap.Populated.define (hm.imp fun _ hu => hu.mono hg) (hv.mono hg)

theorem assignName_finds {id : Ident}
    (hx : ∀ y ∈ (Expr.ident id).assignedUncovered ρ, A y) (hρ : h.Covers env ρ)
    (hv : Grounded A h v) : FindsAny A h (assignName env id.name v) := by
  intro m hg hm
  unfold assignName
  have hread : Exec.heap (fun h => h.frameOf? env id.name) m =
      .ok (m.heap.frameOf? env id.name) m := rfl
  rw [Exec.bind_ok hread]
  cases hframe : m.heap.frameOf? env id.name with
  | some r => exact ⟨grows_define _ _, kept_define hm (hv.mono hg), trivial⟩
  | none =>
    intro y hy
    cases hy
    refine hx id.name ?_
    have hmiss : id.name ∉ ρ := fun hmem => by
      have hsome := isSome_lookup? (hρ.mono hg id.name hmem)
      rw [← isSome_frameOf?, hframe] at hsome
      cases hsome
    rw [Expr.assignedUncovered, if_neg hmiss]
    exact mem_singleton_self _

theorem defineName_finds (ho : h.Open env) (name : String) (hv : Grounded A h v) :
    Finds A h (fun h' _ => h'.Covers env [name]) (defineName env name v) := by
  intro m hg hm
  obtain ⟨r, outer, rfl, hr⟩ := ho.mono hg
  refine ⟨grows_define _ _, kept_define hm (hv.mono hg), fun x hx => ?_⟩
  cases mem_singleton.1 hx
  exact ⟨r, mem_cons_self, has_define v hr⟩

theorem bindPattern_finds (ho : h.Open env) (target : Pattern) (hv : Grounded A h v) :
    Finds A h (fun h' _ => h'.Covers env target.names) (bindPattern env target v) := by
  cases target with
  | ident id => exact defineName_finds ho id.name hv
  | object props =>
    refine (finds_forM env (fun p => [p.2.name]) fun p _ => ?_).weaken fun h' _ _ hc x hx => ?_
    · refine (finds_value fun h' _ => readMember_keeps v p.1).bind fun h' u hg hu => ?_
      exact defineName_finds (ho.mono hg) p.2.name hu
    · obtain ⟨id, hid, rfl⟩ := mem_map.1 hx
      obtain ⟨p, hp, rfl⟩ := mem_map.1 hid
      exact hc p hp _ mem_cons_self
  | array items =>
    refine (finds_forM env (fun p => (p.1.map Ident.name).toList) fun p _ => ?_).weaken
      fun h' _ _ hc x hx => ?_
    · obtain ⟨item, i⟩ := p
      cases item with
      | some id =>
        refine (finds_value fun h' _ => readElement_keeps v _).bind fun h' u hg hu => ?_
        exact defineName_finds (ho.mono hg) id.name hu
      | none => exact finds_pure fun h' _ => h'.covers_nil env
    · obtain ⟨id, hid, rfl⟩ := mem_map.1 hx
      obtain ⟨item, hitem, rfl⟩ := mem_filterMap.1 hid
      obtain ⟨i, hi, hget⟩ := getElem_of_mem hitem
      exact hc (some id, i) (mk_mem_zipIdx_iff_getElem?.2 (hget ▸ getElem?_eq_getElem hi))
        _ mem_cons_self

/-! ## Frames -/

variable (env) in
/-- A new frame has the names that it is made with. -/
theorem newFrame_finds (hl : ∀ p ∈ l, Grounded A h p.2) :
    Finds A h (fun h' r => h'.Open (r :: env) ∧ h'.Covers (r :: env) (l.map Prod.fst))
      (Exec.alloc fun h => h.newFrame (.ofList l)) := by
  intro m hg hm
  have hg' : m.heap.Grows (m.heap.newFrame (.ofList l)).2 := grows_newFrame _
  refine ⟨hg', Heap.Populated.newFrame (hm.imp fun _ hu => hu.mono hg') fun v hv => ?_,
    ⟨_, _, rfl, lt_newFrame _⟩, fun x hx => ?_⟩
  · obtain ⟨p, hp, rfl⟩ := mem_map.1 (Dict.mem_values_ofList hv)
    exact ((hl p hp).mono hg).mono hg'
  · obtain ⟨p, hp, rfl⟩ := mem_map.1 hx
    refine ⟨m.heap.frames.size, mem_cons_self, ?_⟩
    show (((m.heap.newFrame (.ofList l)).2.frame m.heap.frames.size).get? p.1).isSome = true
    rw [frame_newFrame_self]
    exact Dict.isSome_get?_ofList hp

theorem openFrame_finds (hρ : h.Covers env ρ) :
    Finds A h (fun h' env' => h'.Open env' ∧ h'.Covers env' ρ) (openFrame env) := by
  refine (newFrame_finds env (l := []) fun _ hp => nomatch hp).bind fun h' r hg hr => ?_
  exact finds_pure fun h'' hg' => ⟨hr.1.mono hg', ((hρ.mono hg).mono hg').cons r⟩

/-- Hoisting fills a frame with functions, whatever holds of these and of what was there. -/
theorem hoist_run {P : Value → Prop} (stmts : List Stmt)
    (hP : ∀ f, .func f ∈ stmts → P (.func f (r :: outer))) (m : Machine)
    (hr : r < m.heap.frames.size) (hm : m.heap.Populated P) :
    ∃ m', hoist (r :: outer) stmts m = .ok () m' ∧ m.heap.Grows m'.heap ∧ m'.heap.Populated P ∧
      m'.heap.Covers (r :: outer) (Stmt.hoisted stmts) := by
  induction stmts generalizing m with
  | nil => exact ⟨m, rfl, .refl _, hm, m.heap.covers_nil _⟩
  | cons s rest ih =>
    have hrest : ∀ f, .func f ∈ rest → P (.func f (r :: outer)) := fun f hf =>
      hP f (mem_cons_of_mem s hf)
    cases s with
    | func f =>
      unfold hoist Stmt.hoisted
      cases f.name with
      | none => exact ⟨m, rfl, .refl _, hm, m.heap.covers_nil _⟩
      | some id =>
        have hg : m.heap.Grows (m.heap.define r id.name (.func f (r :: outer))) :=
          grows_define _ _
        obtain ⟨m', hrun, hg', hm', hc⟩ := ih hrest
          { m with heap := m.heap.define r id.name (.func f (r :: outer)) }
          (Nat.lt_of_lt_of_le hr hg.size) (hm.define (hP f mem_cons_self))
        refine ⟨m', hrun, hg.trans hg', hm', fun x hx => ?_⟩
        rcases mem_cons.1 hx with rfl | hx
        · exact ⟨r, mem_cons_self, hg'.has (has_define _ hr)⟩
        · exact hc x hx
    | _ => exact ih hrest m hr hm

/-- The functions among statements use no other names out of cover. -/
theorem uncovered_of_mem (hf : .func f ∈ stmts) :
    ∀ x ∈ f.uncovered isFreeName ρ₀, x ∈ Stmt.listUncovered isFreeName ρ₀ ρ stmts := by
  induction stmts generalizing ρ with
  | nil => cases hf
  | cons s rest ih =>
    intro x hx
    rcases mem_cons.1 hf with rfl | hf
    · exact mem_append_left _ hx
    · exact mem_append_right _ (ih hf x hx)

/-- **Hoisting** makes functions that are grounded in the block they are hoisted in. -/
theorem hoist_finds {stmts : List Stmt} (ho : h.Open env) (hρ : h.Covers env ρ)
    (hs : ∀ x ∈ (FuncBody.block stmts).uncovered isFreeName ρ, A x) :
    Finds A h (fun h' _ => h'.Covers env (Stmt.hoisted stmts ∪ ρ)) (hoist env stmts) := by
  intro m hg hm
  obtain ⟨r, outer, rfl, hr⟩ := ho.mono hg
  -- on the way the functions see less than in the end
  obtain ⟨m', hrun, hg', hm', hc⟩ := hoist_run
    (P := fun v => Grounded A m.heap v ∨ ∃ f, .func f ∈ stmts ∧ v = .func f (r :: outer))
    stmts (fun f hf => .inr ⟨f, hf, rfl⟩) m hr (hm.imp fun _ => .inl)
  have hcovers : m'.heap.Covers (r :: outer) (Stmt.hoisted stmts ∪ ρ) :=
    hc.union (hρ.mono (hg.trans hg'))
  rw [hrun]
  refine ⟨hg', hm'.imp fun v hv => ?_, hcovers⟩
  rcases hv with hv | ⟨f, hf, rfl⟩
  · exact hv.mono hg'
  · exact ⟨_, fun x hx => hs x (uncovered_of_mem hf x hx), hcovers⟩

/-! ## Trees -/

variable (A) in
/-- A host whose calls find their names. -/
structure Calls (host : Host) : Prop where
  receiver : ∀ h, Grounded A h host.receiver
  call : ∀ {h f env args}, Grounded A h (.func f env) → (∀ v ∈ args, Grounded A h v) →
    Finds A h (Grounded A) (host.call f env args)

variable (A) in
/-- How a statement may end: with its names declared, or with a result. -/
def Ran (env : Env) (names : List String) (h : Heap) : Flow → Prop
  | .next => h.Covers env names
  | .ret v => Grounded A h v
  | .breakLoop | .continueLoop => True

theorem Ran.forget (hr : Ran A env names h flow) : Ran A env' [] h flow := by
  cases flow with
  | next => exact h.covers_nil env'
  | _ => exact hr

theorem finds_next : Finds A h (Ran A env []) (pure .next) :=
  finds_pure fun h' _ => h'.covers_nil env

section Trees

variable {host : Host} (hh : Calls A host)

include hh

theorem callValue_finds {callee : Value} {args : List Value} (hcallee : Grounded A h callee)
    (hargs : ∀ v ∈ args, Grounded A h v) :
    Finds A h (Grounded A) (callValue host callee args) := by
  have hlater : ∀ h', h.Grows h' → ∀ v ∈ args, Grounded A h' v := fun h' hg v hv =>
    (hargs v hv).mono hg
  cases callee with
  | func f env => exact hh.call hcallee hargs
  | native ns name =>
    exact finds_value fun h' hg => call_keeps ns name (hlater h' hg) fun _ _ _ _ _ _ h => nomatch h
  | contextFn f => exact finds_value fun h' hg => contextFn_keeps host f (hlater h' hg)
  | _ => exact finds_value fun h' _ => keeps_uncallable _

set_option linter.unusedSectionVars false -- used through other members

mutual

/-- **Expressions** find their names. -/
theorem eval_finds (e : Expr) {h : Heap} {env : Env} {ρ : List String}
    (he : ∀ x ∈ e.uncovered isFreeName ρ, A x) (hρ : h.Covers env ρ) :
    Finds A h (Grounded A) (e.eval host env) := by
  match e with
  | .number _ | .str _ | .bool _ | .null | .undefined => exact finds_pure fun _ _ => trivial
  | .ident id => exact readName_finds he hρ
  | .this => exact finds_pure fun h' _ => hh.receiver h'
  | .member base property =>
    refine (eval_finds base he hρ).bind fun h' v _ _ => ?_
    exact finds_value fun _ _ => readMember_keeps v property
  | .index base sub =>
    have he := forall_mem_append.1 he
    refine (eval_finds base he.1 hρ).bind fun h' b hg _ => ?_
    refine (eval_finds sub he.2 (hρ.mono hg)).bind fun h'' i _ _ => ?_
    exact finds_value fun _ _ => readElement_keeps b i
  | .call callee args =>
    have he := forall_mem_append.1 he
    refine (eval_finds callee he.1 hρ).bind fun h' f hg hf => ?_
    refine (evalList_finds args he.2 (hρ.mono hg)).bind fun h'' vs hg' hvs => ?_
    exact callValue_finds hh (hf.mono hg') hvs
  | .unary op arg =>
    refine (eval_finds arg he hρ).bind fun h' v _ _ => ?_
    exact finds_value fun _ _ => keeps_heap fun m _ => fits_unary m.heap op v
  | .update op first target =>
    have he := forall_mem_append.1 he
    refine (eval_finds target he.2 hρ).bind fun h' v hg _ => ?_
    refine (finds_heap fun h => h.number v).bind fun h'' old hg' _ => ?_
    have hnumber : ∀ x, Grounded A h'' (.number x) := fun _ => trivial
    refine (write_finds target he.1 he.2 ((hρ.mono hg).mono hg') (hnumber _)).bind fun _ _ _ _ => ?_
    exact finds_pure fun _ _ => trivial
  | .binary op left right =>
    have he := forall_mem_append.1 he
    refine (eval_finds left he.1 hρ).bind fun h' l hg _ => ?_
    refine (eval_finds right he.2 (hρ.mono hg)).bind fun h'' r _ _ => ?_
    exact finds_value fun _ _ => keeps_binary op l r
  | .logical op left right =>
    have he := forall_mem_append.1 he
    refine (eval_finds left he.1 hρ).bind fun h' l hg hl => ?_
    refine (finds_heap fun h => h.settles op l).bind fun h'' b hg' _ => ?_
    cases b with
    | true => exact finds_pure fun _ hg'' => (hl.mono hg').mono hg''
    | false => exact eval_finds right he.2 ((hρ.mono hg).mono hg')
  | .conditional test consequent alternate =>
    obtain ⟨htest, he⟩ := forall_mem_append.1 he
    have he := forall_mem_append.1 he
    refine (eval_finds test htest hρ).bind fun h' v hg _ => ?_
    refine (finds_heap fun h => h.truthy v).bind fun h'' b hg' _ => ?_
    cases b with
    | true => exact eval_finds consequent he.1 ((hρ.mono hg).mono hg')
    | false => exact eval_finds alternate he.2 ((hρ.mono hg).mono hg')
  | .assign op target value =>
    obtain ⟨hassigned, he⟩ := forall_mem_append.1 he
    have he := forall_mem_append.1 he
    refine (eval_finds value he.2 hρ).bind fun h₁ rhs hg hrhs => ?_
    have hstore : ∀ h₂ v, h₁.Grows h₂ → Grounded A h₂ v →
        Finds A h₂ (Grounded A) (do target.write host env v; return v) := fun h₂ v hg₂ hv =>
      (write_finds target hassigned he.1 ((hρ.mono hg).mono hg₂) hv).bind fun _ _ hg₃ _ =>
        finds_pure fun _ hg₄ => (hv.mono hg₃).mono hg₄
    cases op.binary? with
    | none => exact (finds_pure fun _ hg₂ => hrhs.mono hg₂).bind hstore
    | some bop =>
      refine (eval_finds target he.1 (hρ.mono hg)).bind fun h₂ old hg₂ _ => ?_
      refine (finds_value fun _ _ => keeps_binary bop old rhs).bind fun h₃ v hg₃ hv => ?_
      exact hstore h₃ v (hg₂.trans hg₃) hv
  | .array items =>
    refine (evalCurrent_finds items he hρ).bind fun h' vs _ hvs => ?_
    refine finds_value fun h'' hg => keeps_alloc fun m hm => ⟨?_, trivial⟩
    exact (regime A h'').newArray hm fun v hv => ⟨(hvs v hv).1, (hvs v hv).2.mono hg⟩
  | .object props =>
    refine (evalFields_finds props he hρ).bind fun h' fields _ hfields => ?_
    refine finds_value fun h'' hg => keeps_alloc fun m hm => ⟨?_, trivial⟩
    exact (regime A h'').newObject hm fun p hp => ⟨(hfields p hp).1, (hfields p hp).2.mono hg⟩
  | .func f => exact finds_pure fun _ hg => ⟨ρ, he, hρ.mono hg⟩

theorem write_finds (e : Expr) {h : Heap} {env : Env} {ρ : List String} {v : Value}
    (hassigned : ∀ x ∈ e.assignedUncovered ρ, A x) (he : ∀ x ∈ e.uncovered isFreeName ρ, A x)
    (hρ : h.Covers env ρ) (hv : Grounded A h v) : FindsAny A h (e.write host env v) := by
  match e with
  | .ident id => exact assignName_finds hassigned hρ hv
  | .member base property =>
    refine (eval_finds base he hρ).bind fun h' b hg _ => ?_
    exact finds_work (fun _ hg' => writeMember_keeps b property ((hv.mono hg).mono hg'))
      fun _ _ => trivial
  | .index base sub =>
    have he := forall_mem_append.1 he
    refine (eval_finds base he.1 hρ).bind fun h' b hg _ => ?_
    refine (eval_finds sub he.2 (hρ.mono hg)).bind fun h'' i hg' _ => ?_
    refine finds_work (fun _ hg'' => ?_) fun _ _ => trivial
    exact writeElement_keeps b i (((hv.mono hg).mono hg').mono hg'') fun _ _ _ _ h => nomatch h
  | .number _ | .str _ | .bool _ | .null | .undefined | .this | .call _ _ | .unary _ _
  | .update _ _ _ | .binary _ _ _ | .logical _ _ _ | .conditional _ _ _ | .assign _ _ _
  | .array _ | .object _ | .func _ => exact finds_fail trivial

theorem evalList_finds (es : List Expr) {h : Heap} {env : Env} {ρ : List String}
    (he : ∀ x ∈ Expr.listUncovered isFreeName ρ es, A x) (hρ : h.Covers env ρ) :
    Finds A h (fun h' vs => ∀ v ∈ vs, Grounded A h' v) (Expr.evalList host env es) := by
  match es with
  | [] => exact finds_pure fun _ _ _ hv => nomatch hv
  | e :: rest =>
    have he := forall_mem_append.1 he
    refine (eval_finds e he.1 hρ).bind fun h' v hg hv => ?_
    refine (evalList_finds rest he.2 (hρ.mono hg)).bind fun h'' vs hg' hvs => ?_
    exact finds_pure fun _ hg'' => forall_mem_cons.2
      ⟨(hv.mono hg').mono hg'', fun u hu => (hvs u hu).mono hg''⟩

theorem evalCurrent_finds (es : List Expr) {h : Heap} {env : Env} {ρ : List String}
    (he : ∀ x ∈ Expr.listUncovered isFreeName ρ es, A x) (hρ : h.Covers env ρ) :
    Finds A h (fun h' vs => ∀ v ∈ vs, ¬ v.IsSeries ∧ Grounded A h' v)
      (Expr.evalCurrent host env es) := by
  match es with
  | [] => exact finds_pure fun _ _ _ hv => nomatch hv
  | e :: rest =>
    have he := forall_mem_append.1 he
    refine (eval_finds e he.1 hρ).bind fun h₁ v hg hv => ?_
    refine (current_finds hv).bind fun h₂ w hg₂ hw => ?_
    refine (evalCurrent_finds rest he.2 ((hρ.mono hg).mono hg₂)).bind fun h₃ vs hg₃ hvs => ?_
    exact finds_pure fun _ hg₄ => forall_mem_cons.2
      ⟨⟨hw.1, (hw.2.mono hg₃).mono hg₄⟩, fun u hu => ⟨(hvs u hu).1, (hvs u hu).2.mono hg₄⟩⟩

theorem evalFields_finds (props : List (String × Expr)) {h : Heap} {env : Env} {ρ : List String}
    (he : ∀ x ∈ Expr.propUncovered isFreeName ρ props, A x) (hρ : h.Covers env ρ) :
    Finds A h (fun h' fields => ∀ p ∈ fields, ¬ p.2.IsSeries ∧ Grounded A h' p.2)
      (Expr.evalFields host env props) := by
  match props with
  | [] => exact finds_pure fun _ _ _ hv => nomatch hv
  | (key, e) :: rest =>
    have he := forall_mem_append.1 he
    refine (eval_finds e he.1 hρ).bind fun h₁ v hg hv => ?_
    refine (current_finds hv).bind fun h₂ w hg₂ hw => ?_
    refine (evalFields_finds rest he.2 ((hρ.mono hg).mono hg₂)).bind fun h₃ vs hg₃ hvs => ?_
    exact finds_pure fun _ hg₄ => forall_mem_cons.2
      ⟨⟨hw.1, (hw.2.mono hg₃).mono hg₄⟩, fun u hu => ⟨(hvs u hu).1, (hvs u hu).2.mono hg₄⟩⟩

theorem evalOpt_finds (e? : Option Expr) {h : Heap} {env : Env} {ρ : List String}
    (he : ∀ x ∈ Expr.optUncovered isFreeName ρ e?, A x) (hρ : h.Covers env ρ) :
    Finds A h (Grounded A) (Expr.evalOpt host env e?) := by
  match e? with
  | none => exact finds_pure fun _ _ => trivial
  | some e => exact eval_finds e he hρ

end

theorem holds_finds (test : Option Expr) {h : Heap} {env : Env} {ρ : List String}
    (he : ∀ x ∈ Expr.optUncovered isFreeName ρ test, A x) (hρ : h.Covers env ρ) :
    FindsAny A h (Expr.holds host env test) := by
  cases test with
  | none => exact finds_pure fun _ _ => trivial
  | some e => exact (eval_finds hh e he hρ).bind fun _ v _ _ => finds_heap fun h => h.truthy v

omit hh in
/-- **Loops** find their names if their parts do, by induction on the rounds that are left. -/
theorem loop_finds (htest : FindsAny A h test)
    (hbody : Finds A h (Ran A env' names) body) (hstep : FindsAny A h step) :
    Finds A h (Ran A env []) (loop limit test body step left) := by
  induction left generalizing h with
  | zero =>
    refine htest.bind fun h' b _ _ => ?_
    cases b with
    | true => exact finds_fail trivial
    | false => exact finds_next
  | succ n ih =>
    refine htest.bind fun h₁ b hg _ => ?_
    cases b with
    | false => exact finds_next
    | true =>
      refine (hbody.later hg).bind fun h₂ flow hg₂ hflow => ?_
      have hagain : Finds A h₂ (Ran A env []) (do step; loop limit test body step n) :=
        (hstep.later (hg.trans hg₂)).bind fun h₃ _ hg₃ _ =>
          have hg' := (hg.trans hg₂).trans hg₃
          ih (htest.later hg') (hbody.later hg') (hstep.later hg')
      cases flow with
      | next | continueLoop => exact hagain
      | breakLoop => exact finds_next
      | ret v => exact finds_pure fun _ hg₃ => hflow.mono hg₃

theorem rounds_finds (test update : Option Expr) {body : Stmt} {h : Heap} {env env' : Env}
    {ρ names : List String} (htest : ∀ x ∈ Expr.optUncovered isFreeName ρ test, A x)
    (hupdate : ∀ x ∈ Expr.optUncovered isFreeName ρ update, A x)
    (hbody : Finds A h (Ran A env names) (body.exec host env)) (hρ : h.Covers env ρ) :
    Finds A h (Ran A env' []) (Stmt.rounds host env test update body) :=
  loop_finds (holds_finds hh test htest hρ) hbody
    ((evalOpt_finds hh update hupdate hρ).bind fun _ _ _ _ => finds_pure fun _ _ => trivial)

/-- **Declarations** find their names, and what they declare is there afterwards. -/
theorem declare_finds (ds : List Declarator) {h : Heap} {env : Env} {ρ : List String}
    (hs : ∀ x ∈ Declarator.listUncovered isFreeName ρ ds, A x) (ho : h.Open env)
    (hρ : h.Covers env ρ) :
    Finds A h (fun h' _ => h'.Covers env (Declarator.introduced ds))
      (Declarator.declare host env ds) := by
  induction ds generalizing h ρ with
  | nil => exact finds_pure fun h' _ => h'.covers_nil env
  | cons d rest ih =>
    obtain ⟨target, init, pos⟩ := d
    have hs := forall_mem_append.1 hs
    refine (evalOpt_finds hh init hs.1 hρ).bind fun h₁ v hg hv => ?_
    refine (bindPattern_finds (ho.mono hg) target hv).bind fun h₂ _ hg₂ htarget => ?_
    have hg' := hg.trans hg₂
    refine (ih hs.2 (ho.mono hg') (htarget.union (hρ.mono hg'))).weaken
      fun h₃ _ hg₃ hrest x hx => ?_
    rcases mem_append.1 hx with hx | hx
    · exact htarget.mono hg₃ x hx
    · exact hrest x hx

theorem start_finds (init : Option ForInit) {h : Heap} {env : Env} {ρ : List String}
    (hs : ∀ x ∈ ForInit.uncovered isFreeName ρ init, A x) (ho : h.Open env) (hρ : h.Covers env ρ) :
    Finds A h (fun h' _ => h'.Covers env (ForInit.introduced init ∪ ρ))
      (ForInit.start host env init) := by
  match init with
  | none => exact finds_pure fun _ hg => hρ.mono hg
  | some (.decl ⟨_, ds⟩) =>
    exact (declare_finds hh ds hs ho hρ).weaken fun _ _ hg hds => hds.union (hρ.mono hg)
  | some (.expr e) =>
    exact (eval_finds hh e hs hρ).bind fun _ _ hg _ => finds_pure fun _ hg' => (hρ.mono hg).mono hg'

mutual

/-- **Statements** find their names, and declare theirs. -/
theorem exec_finds (s : Stmt) {h : Heap} {env : Env} {ρ₀ ρ : List String}
    (hs : ∀ x ∈ s.uncovered isFreeName ρ₀ ρ, A x) (ho : h.Open env) (hρ : h.Covers env ρ) :
    Finds A h (Ran A env s.introduced) (s.exec host env) := by
  match s with
  | .decl ⟨_, ds⟩ =>
    refine (declare_finds hh ds hs ho hρ).bind fun h' _ _ hds => ?_
    exact finds_pure fun _ hg => hds.mono hg
  | .expr e => exact (eval_finds hh e hs hρ).bind fun _ _ _ _ => finds_next
  | .branch test consequent none =>
    obtain ⟨htest, hs⟩ := forall_mem_append.1 hs
    have hs := forall_mem_append.1 hs
    refine (eval_finds hh test htest hρ).bind fun h₁ v hg _ => ?_
    refine (finds_heap fun h => h.truthy v).bind fun h₂ b hg₂ _ => ?_
    have hg' := hg.trans hg₂
    cases b with
    | true =>
      exact (exec_finds consequent hs.1 (ho.mono hg') (hρ.mono hg')).weaken fun _ _ _ => Ran.forget
    | false => exact finds_next
  | .branch test consequent (some alternate) =>
    obtain ⟨htest, hs⟩ := forall_mem_append.1 hs
    have hs := forall_mem_append.1 hs
    refine (eval_finds hh test htest hρ).bind fun h₁ v hg _ => ?_
    refine (finds_heap fun h => h.truthy v).bind fun h₂ b hg₂ _ => ?_
    have hg' := hg.trans hg₂
    cases b with
    | true =>
      exact (exec_finds consequent hs.1 (ho.mono hg') (hρ.mono hg')).weaken fun _ _ _ => Ran.forget
    | false =>
      exact (exec_finds alternate hs.2 (ho.mono hg') (hρ.mono hg')).weaken fun _ _ _ => Ran.forget
  | .forLoop init test update body =>
    obtain ⟨hinit, hs⟩ := forall_mem_append.1 hs
    obtain ⟨htest, hs⟩ := forall_mem_append.1 hs
    have hs := forall_mem_append.1 hs
    rw [Stmt.exec_forLoop]
    refine (openFrame_finds hρ).bind fun h₁ env' hg henv => ?_
    refine (start_finds hh init hinit henv.1 henv.2).bind fun h₂ _ hg₂ hρ₂ => ?_
    exact rounds_finds hh test update htest hs.1 (exec_finds body hs.2 (henv.1.mono hg₂) hρ₂) hρ₂
  | .whileLoop test body =>
    have hs := forall_mem_append.1 hs
    exact rounds_finds hh (some test) none hs.1 (fun _ hx => nomatch hx)
      (exec_finds body hs.2 ho hρ) hρ
  | .block stmts =>
    refine (openFrame_finds hρ).bind fun h₁ env' hg henv => ?_
    refine (hoist_finds henv.1 henv.2 hs).bind fun h₂ _ hg₂ hρ₂ => ?_
    exact (execList_finds stmts hs (henv.1.mono hg₂) hρ₂).weaken fun _ _ _ => Ran.forget
  | .ret arg =>
    refine (evalOpt_finds hh arg hs hρ).bind fun h' v _ hv => ?_
    exact finds_pure fun _ hg => hv.mono hg
  | .func _ | .empty => exact finds_next
  | .breakLoop | .continueLoop => exact finds_pure fun _ _ => trivial

theorem execList_finds (stmts : List Stmt) {h : Heap} {env : Env} {ρ₀ ρ : List String}
    (hs : ∀ x ∈ Stmt.listUncovered isFreeName ρ₀ ρ stmts, A x) (ho : h.Open env)
    (hρ : h.Covers env ρ) :
    Finds A h (Ran A env []) (Stmt.execList host env stmts) := by
  match stmts with
  | [] => exact finds_next
  | s :: rest =>
    have hs := forall_mem_append.1 hs
    refine (exec_finds s hs.1 ho hρ).bind fun h' flow hg hflow => ?_
    cases flow with
    | next => exact execList_finds rest hs.2 (ho.mono hg) (hflow.union (hρ.mono hg))
    | ret v => exact finds_pure fun _ hg' => hflow.mono hg'
    | breakLoop | continueLoop => exact finds_pure fun _ _ => trivial

end

theorem body_finds {body : FuncBody} {h : Heap} {env : Env} {ρ : List String}
    (hbody : ∀ x ∈ body.uncovered isFreeName ρ, A x) (ho : h.Open env) (hρ : h.Covers env ρ) :
    Finds A h (Grounded A) (body.run host env) := by
  cases body with
  | expr e => exact eval_finds hh e hbody hρ
  | block stmts =>
    refine (hoist_finds ho hρ hbody).bind fun h₁ _ hg hρ₁ => ?_
    refine (execList_finds hh stmts hbody (ho.mono hg) hρ₁).bind fun h₂ flow _ hflow => ?_
    cases flow with
    | next => exact finds_pure fun _ _ => trivial
    | ret v => exact finds_pure fun _ hg' => hflow.mono hg'
    | breakLoop | continueLoop => exact finds_fail trivial

/-- **Calls** find their names: the frame of a call has the parameters. -/
theorem apply_finds (hf : Grounded A h (.func f env)) (hargs : ∀ v ∈ args, Grounded A h v) :
    Finds A h (Grounded A) (apply host f env args) := by
  obtain ⟨name, params, body, style, pos⟩ := f
  obtain ⟨ρ, hbody, hρ⟩ := hf
  have hparams : ∀ p ∈ bindParams params args, Grounded A h p.2 := by
    rintro ⟨x, v⟩ hp
    rcases snd_of_mem_bindParams hp with rfl | hv
    · exact trivial
    · exact hargs v hv
  rw [apply_eq]
  refine (newFrame_finds env hparams).bind fun h₁ r hg hr => ?_
  rw [map_fst_bindParams] at hr
  exact body_finds hh hbody hr.1 (hr.2.union ((hρ.mono hg).cons r))

end Trees

/-! ## Runs -/

/-- Calls find their names, by induction on the calls that may still be opened. -/
theorem callWithin_calls (hreceiver : ∀ h, Grounded A h receiver) (rounds limit left : Nat) :
    Calls A ⟨receiver, rounds, callWithin receiver rounds limit left⟩ := by
  induction left with
  | zero => exact ⟨hreceiver, fun _ _ => finds_fail trivial⟩
  | succ n ih => exact ⟨hreceiver, fun hf hargs => apply_finds ih hf hargs⟩

variable {ind : Indicator} (hreceiver : ∀ h, Grounded A h ind.receiver)
  (hp : ∀ x ∈ ind.program.uncovered, A x)

include hreceiver hp

end Coverage

end BarScript

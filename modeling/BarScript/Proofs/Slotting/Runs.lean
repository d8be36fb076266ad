import BarScript.Proofs.Slotting.Steps

/-!
# A flat script and its slotted form run alike

Trees that are laid out keep machines in step, construct by construct; so do bars,
since no slot of an earlier bar is read before it is declared again. A script in the
class of flat scripts and its slotted form therefore give the same rows and stop with
the same errors, whatever the settings and the candles are.
-/

namespace BarScript

open Machine Slotted List
open Declarator (declare)

namespace Slotting

/-! ## Expressions -/

section Exprs

variable {c : Setting} {D : Array (History Value)} {K : Context} {ρ : Env} {T : Layout}
  {host : Host}

theorem place_eval (ht : Place c T t t') :
    Evaluates c D K ρ T (t.eval host ρ) (t'.eval host ρ) := by
  cases ht with
  | frame h => exact readName_runs fun b hb => nomatch h.symm.trans hb
  | slot h => exact readSlot_runs h

theorem place_write (ht : Place c T t t') (hv : Shown D v v') :
    Runs (Matched c D K ρ T) (t.write host ρ v) (t'.write host ρ v') fun _ _ =>
      Matched c D K ρ T := by
  cases ht with
  | frame h => exact assignName_runs h hv
  | slot h => exact writeSlot_runs h hv

/-- A value that shows no history stands for itself. -/
theorem evaluates_pure (hv : Visible D v) : Evaluates c D K ρ T (pure v) (pure v) :=
  runs_pure fun _ _ hmn => ⟨hv.shown, hmn⟩

theorem binary_runs (hv : Shown D v v') (hu : Shown D u u') (op : BinaryOp) :
    Evaluates c D K ρ T (Exec.heap? fun h => h.binary? op v u)
      (Exec.heap? fun h => h.binary? op v' u') :=
  runs_heap? fun _ _ hmn => hv.binary hmn.near hu op

theorem truthy_runs {v v' : Value} (hv : Shown D v v') :
    Runs (Matched c D K ρ T) (Exec.heap fun h => h.truthy v) (Exec.heap fun h => h.truthy v')
      fun b b' m n => b = b' ∧ Matched c D K ρ T m n :=
  runs_heap fun _ _ hmn => hv.truthy hmn.near

mutual

/-- **Expressions that are laid out evaluate alike.** -/
theorem eval_runs {e e' : Expr} (h : Laid c T e e') :
    Evaluates c D K ρ T (e.eval host ρ) (e'.eval host ρ) := by
  cases h with
  | number | str | bool | null | undefined => exact evaluates_pure trivial
  | name h => exact readName_runs h
  | slot h => exact readSlot_runs h
  | unary h =>
    refine (eval_runs h).bind fun v v' => runs_of fun hv => ?_
    exact runs_heap fun _ _ hmn => hv.unary hmn.near _
  | update h =>
    refine (place_eval h).bind fun v v' => runs_of fun hv => ?_
    refine (runs_heap fun _ _ hmn => hv.number hmn.near).bind fun x x' => runs_of fun hx => ?_
    subst hx
    have hnumber : ∀ y, Visible D (.number y) := fun _ => trivial
    exact (place_write h (hnumber _).shown).bind fun _ _ => evaluates_pure (hnumber _)
  | binary hl hr =>
    refine (eval_runs hl).bind fun v v' => runs_of fun hv => ?_
    refine (eval_runs hr).bind fun u u' => runs_of fun hu => ?_
    exact binary_runs hv hu _
  | logical hl hr =>
    refine (eval_runs hl).bind fun v v' => runs_of fun hv => ?_
    refine (runs_heap fun _ _ hmn => hv.settles hmn.near _).bind fun b b' => runs_of fun hb => ?_
    subst hb
    cases b with
    | true => exact runs_pure fun _ _ hmn => ⟨hv, hmn⟩
    | false => exact eval_runs hr
  | conditional ht hl hr =>
    refine (eval_runs ht).bind fun v v' => runs_of fun hv => ?_
    refine (truthy_runs hv).bind fun b b' => runs_of fun hb => ?_
    subst hb
    cases b with
    | true => exact eval_runs hl
    | false => exact eval_runs hr
  | @assign op t t' e e' ht hv =>
    refine (eval_runs hv).bind fun v v' => runs_of fun hv => ?_
    have hstore : ∀ u u', Shown D u u' → Evaluates c D K ρ T
        (do t.write host ρ u; return u) (do t'.write host ρ u'; return u') := fun u u' hu =>
      (place_write ht hu).bind fun _ _ => runs_pure fun _ _ hmn => ⟨hu, hmn⟩
    cases op.binary? with
    | none => exact hstore v v' hv
    | some bop =>
      refine (place_eval ht).bind fun old old' => runs_of fun hold => ?_
      exact (binary_runs hold hv bop).bind fun u u' => runs_of fun hu => hstore u u' hu
  | array h =>
    refine (evalCurrent_runs h).bind fun l l' => runs_of fun hl => ?_
    obtain ⟨rfl, hl⟩ := hl
    exact newArray_runs hl
  | object h =>
    refine (evalFields_runs h).bind fun l l' => runs_of fun hl => ?_
    obtain ⟨rfl, hl⟩ := hl
    exact newObject_runs hl

theorem evalCurrent_runs (h : LaidList c T es es') :
    Runs (Matched c D K ρ T) (Expr.evalCurrent host ρ es) (Expr.evalCurrent host ρ es')
      fun l l' m n => (l' = l ∧ ∀ v ∈ l, ¬ v.IsSeries) ∧ Matched c D K ρ T m n := by
  cases h with
  | nil => exact runs_pure fun _ _ hmn => ⟨⟨rfl, fun _ hv => nomatch hv⟩, hmn⟩
  | cons h hs =>
    refine (eval_runs h).bind fun v v' => runs_of fun hv => ?_
    refine (runs_heap (R := fun u u' => u' = u ∧ ¬ u.IsSeries) fun m n hmn =>
      ⟨hv.current hmn.near, hmn.near.sound.current v⟩).bind fun u u' => runs_of fun hu => ?_
    obtain ⟨rfl, hu⟩ := hu
    refine (evalCurrent_runs hs).bind fun l l' => runs_of fun hl => ?_
    obtain ⟨rfl, hl⟩ := hl
    exact runs_pure fun _ _ hmn => ⟨⟨rfl, forall_mem_cons.2 ⟨hu, hl⟩⟩, hmn⟩

theorem evalFields_runs (h : LaidProps c T ps ps') :
    Runs (Matched c D K ρ T) (Expr.evalFields host ρ ps) (Expr.evalFields host ρ ps')
      fun l l' m n => (l' = l ∧ ∀ p ∈ l, ¬ p.2.IsSeries) ∧ Matched c D K ρ T m n := by
  cases h with
  | nil => exact runs_pure fun _ _ hmn => ⟨⟨rfl, fun _ hv => nomatch hv⟩, hmn⟩
  | cons h hs =>
    refine (eval_runs h).bind fun v v' => runs_of fun hv => ?_
    refine (runs_heap (R := fun u u' => u' = u ∧ ¬ u.IsSeries) fun m n hmn =>
      ⟨hv.current hmn.near, hmn.near.sound.current v⟩).bind fun u u' => runs_of fun hu => ?_
    obtain ⟨rfl, hu⟩ := hu
    refine (evalFields_runs hs).bind fun l l' => runs_of fun hl => ?_
    obtain ⟨rfl, hl⟩ := hl
    exact runs_pure fun _ _ hmn => ⟨⟨rfl, forall_mem_cons.2 ⟨hu, hl⟩⟩, hmn⟩

end

theorem evalOpt_runs {e? e?' : Option Expr} (h : LaidOpt c T e? e?') :
    Evaluates c D K ρ T (Expr.evalOpt host ρ e?) (Expr.evalOpt host ρ e?') := by
  cases h with
  | none => exact evaluates_pure trivial
  | some h => exact eval_runs h

theorem holds_runs {e? e?' : Option Expr} (h : LaidOpt c T e? e?') :
    Runs (Matched c D K ρ T) (Expr.holds host ρ e?) (Expr.holds host ρ e?')
      fun b b' m n => b = b' ∧ Matched c D K ρ T m n := by
  cases h with
  | none => exact runs_pure fun _ _ hmn => ⟨rfl, hmn⟩
  | some h => exact (eval_runs h).bind fun v v' => runs_of truthy_runs

end Exprs

/-! ## Declarations -/

/-- Machines in step, whatever the slots of the second one are. -/
def InStep (c : Setting) (D : Array (History Value)) (ρ : Env) (T : Layout) (m n : Machine) :
    Prop :=
  ∃ K, Matched c D K ρ T m n

section Declarations

variable {c : Setting} {D : Array (History Value)} {K : Context} {ρ : Env} {T : Layout} {L : Names}
  {r : Ref} {host : Host}

theorem runs_inStep {α β : Type} {x : Exec α} {y : Exec β} {T' : Layout}
    (h : ∀ K, Runs (Matched c D K ρ T) x y fun _ _ => Matched c D K ρ T') :
    Runs (InStep c D ρ T) x y fun _ _ => InStep c D ρ T' := by
  rintro m n ⟨K, hmn⟩
  exact (h K m n hmn).imp fun _ _ _ _ h => ⟨K, h⟩

theorem results_inStep {α β : Type} {x : Exec α} {y : Exec β} {R : α → β → Prop}
    (h : ∀ K, Runs (Matched c D K ρ T) x y fun a b m n => R a b ∧ Matched c D K ρ T m n) :
    Runs (InStep c D ρ T) x y fun a b m n => R a b ∧ InStep c D ρ T m n := by
  rintro m n ⟨K, hmn⟩
  exact (h K m n hmn).imp fun _ _ _ _ h => ⟨h.1, K, h.2⟩

theorem evalInit_runs {init : Option Expr} {init' : Expr} (h : LaidInit c T init init') :
    Evaluates c D K ρ T (Expr.evalOpt host ρ init) (init'.eval host ρ) := by
  cases h with
  | none => exact evaluates_pure trivial
  | some h => exact eval_runs h

/-- What the declaration of a slot comes to, given how its value is evaluated. -/
theorem exec_declare {e : Expr} (hmn : Matched c D K ρ T m n) (he : e.eval host ρ n = .ok v' n')
    (hn' : n'.heap.lookup? ρ c.root = some .context) :
    (c.declare b e).exec host ρ n =
      (do
        let _ ← Tame.declareSlot b.bucket b.slot (K.slot b.bucket b.slot) v'
        return Flow.next) n' := by
  have hdeclare :
      (Expr.assign .assign (c.slot b) (c.contextCall "init" [c.slot b, e])).eval host ρ n =
      Tame.declareSlot b.bucket b.slot (n.context.slot b.bucket b.slot) v' n' :=
    @Tame.eval_declared n' n v' ρ ⟨c.root, {}⟩ ⟨c.root, {}⟩ ⟨c.root, {}⟩ hmn.reads hmn.reads host
      b.bucket b.slot e he hn'
  rw [hmn.context] at hdeclare
  exact Exec.bind_congr hdeclare

theorem exec_declare_error {e : Expr} (hmn : Matched c D K ρ T m n)
    (he : e.eval host ρ n = .error err n') :
    (c.declare b e).exec host ρ n = .error err n' :=
  Exec.bind_error (@Tame.eval_declared_error n' n ρ ⟨c.root, {}⟩ ⟨c.root, {}⟩ ⟨c.root, {}⟩ hmn.reads
    hmn.reads host b.bucket b.slot e err he)

/-- **Declaring a name**, with its value. -/
theorem declare_runs {x : String} {b : Binding} {init : Option Expr} {init' : Expr}
    (hinit : LaidInit c (L :: T) init init') (hnew : home? (L :: T) x = none)
    (hb : b.slot = Scopes.slotName b.scope b.serial x) :
    Runs (InStep c D (r :: ρ) (L :: T))
      (do defineName (r :: ρ) x (← Expr.evalOpt host (r :: ρ) init))
      ((c.declare b init').exec host (r :: ρ))
      fun _ f m n => f = .next ∧ InStep c D (r :: ρ) (((x, .slot b) :: L) :: T) m n := by
  rintro m n ⟨K, hmn⟩
  have hvalue : Evaluates c D K (r :: ρ) (L :: T) (Expr.evalOpt host (r :: ρ) init)
    (init'.eval host (r :: ρ)) := evalInit_runs hinit
  have hends := hvalue m n hmn
  generalize hs : Expr.evalOpt host (r :: ρ) init m = s at hends
  generalize ht : init'.eval host (r :: ρ) n = t at hends
  cases hends with
  | ok h =>
    obtain ⟨hv, hmn'⟩ := h
    rw [Exec.bind_ok hs, exec_declare hmn ht hmn'.reads, ← bind_pure (defineName _ _ _)]
    refine (declareSlot_runs hnew hb hv).bind (fun _ _ => ?_) _ _ hmn'
    exact runs_pure fun _ _ h => ⟨rfl, h⟩
  | error =>
    rw [Exec.bind_error hs, exec_declare_error hmn ht]
    exact .error

theorem readData_runs (key : String) :
    Evaluates c D K ρ T (readMember (.group .data) key) (readMember (.group .data) key) := by
  intro m n hmn
  have hdata : n.context.data = m.context.data := by rw [hmn.near.context]
  have hread : ∀ m : Machine, readMember (.group .data) key m = .ok (m.context.dataSeries key) m :=
    fun _ => rfl
  rw [hread, hread]
  unfold Context.dataSeries Context.view
  rw [hdata]
  cases hr : m.context.data.get? key with
  | none => exact .ok ⟨Visible.shown trivial, hmn⟩
  | some r =>
    have hlt : Visible D (.series r 0) := hmn.near.named r (Context.mem_named_of_data hr)
    exact .ok ⟨hlt.shown, hmn⟩

theorem bindData_runs {props : List (String × Ident)}
    (hnew : ∀ p ∈ props, home? (L :: T) p.2.name = none)
    (hnodup : (props.map fun p => p.2.name).Nodup) :
    Runs (InStep c D (r :: ρ) (L :: T)) (bindPattern (r :: ρ) (.object props) (.group .data))
      (bindPattern (r :: ρ) (.object props) (.group .data))
      fun _ _ => InStep c D (r :: ρ) (readNames L props :: T) := by
  induction props generalizing L with
  | nil => exact runs_pure fun _ _ hmn => hmn
  | cons p props ih =>
    obtain ⟨key, id⟩ := p
    obtain ⟨hid, hnew⟩ := forall_mem_cons.1 hnew
    rw [map_cons, nodup_cons] at hnodup
    have hdefine : Runs (InStep c D (r :: ρ) (L :: T))
        (do defineName (r :: ρ) id.name (← readMember (.group .data) key))
        (do defineName (r :: ρ) id.name (← readMember (.group .data) key))
        fun _ _ => InStep c D (r :: ρ) (((id.name, .frame) :: L) :: T) :=
      runs_inStep fun K => (readData_runs key).bind fun v v' => runs_of (defineName_runs hid)
    refine hdefine.bind fun _ _ => ih (fun p hp => ?_) hnodup.2
    rw [home?_cons_cons, if_neg]
    · exact hnew p hp
    · exact fun heq => hnodup.1 (mem_map.2 ⟨p, hp, heq⟩)

theorem readContext_runs {init : Expr}
    (hinit : init.isData c.root = true) (hnew : ∀ p ∈ props, home? (L :: T) p.2.name = none)
    (hnodup : (props.map fun p => p.2.name).Nodup) :
    Runs (InStep c D (r :: ρ) (L :: T))
      (do bindPattern (r :: ρ) (.object props) (← Expr.evalOpt host (r :: ρ) (some init)))
      (do bindPattern (r :: ρ) (.object props) (← Expr.evalOpt host (r :: ρ) (some init)))
      fun _ _ => InStep c D (r :: ρ) (readNames L props :: T) := by
  unfold Expr.isData at hinit
  split at hinit
  · rename_i id
    have hid : id.name = c.root := beq_iff_eq.1 hinit
    have hread : ∀ m : Machine, m.heap.lookup? (r :: ρ) c.root = some .context →
        Expr.evalOpt host (r :: ρ) (some (.member (.ident id) "data")) m = .ok (.group .data) m :=
      fun m hm => (Tame.eval_contextMember (hid ▸ hm) host "data").trans rfl
    rintro m n ⟨K, hmn⟩
    rw [Exec.bind_ok (hread m hmn.reads'), Exec.bind_ok (hread n hmn.reads)]
    exact bindData_runs hnew hnodup m n ⟨K, hmn⟩
  · cases hinit

/-- **Declarators that are laid out declare the same names.** -/
theorem declarators_runs {kind : DeclKind} {ds : List Declarator} {stmts : List Stmt} {L' : Names}
    (h : LaidDecls c T L kind ds stmts L') :
    Runs (InStep c D (r :: ρ) (L :: T)) (declare host (r :: ρ) ds)
      (Stmt.execList host (r :: ρ) stmts)
      fun _ f m n => f = .next ∧ InStep c D (r :: ρ) (L' :: T) m n := by
  induction h with
  | nil => exact runs_pure fun _ _ hmn => ⟨rfl, hmn⟩
  | @slot L L' kind id init init' pos rest stmts b hinit hnew hb _ ih =>
    have hdeclare : declare host (r :: ρ) (⟨.ident id, init, pos⟩ :: rest) = (do
        (do defineName (r :: ρ) id.name (← Expr.evalOpt host (r :: ρ) init))
        declare host (r :: ρ) rest) := by
      rw [bind_assoc]
      rfl
    rw [hdeclare]
    refine (declare_runs hinit hnew hb).bind fun _ f => runs_of fun hf => ?_
    subst hf
    exact ih
  | @read L L' kind props init pos rest stmts hinit hnew hnodup _ ih =>
    have hdeclare : declare host (r :: ρ) (⟨.object props, some init, pos⟩ :: rest) = (do
        (do bindPattern (r :: ρ) (.object props) (← Expr.evalOpt host (r :: ρ) (some init)))
        declare host (r :: ρ) rest) := by
      rw [bind_assoc]
      rfl
    have hexec : Stmt.execList host (r :: ρ)
        (.decl ⟨kind, [⟨.object props, some init, pos⟩]⟩ :: stmts) = (do
        (do bindPattern (r :: ρ) (.object props) (← Expr.evalOpt host (r :: ρ) (some init)))
        Stmt.execList host (r :: ρ) stmts) := by
      simp only [Stmt.execList, Stmt.exec, declare, bind_assoc, pure_bind]
    rw [hdeclare, hexec]
    exact (readContext_runs hinit hnew hnodup).bind fun _ _ => ih

end Declarations

/-! ## Statements -/

/-- Statements that end in the same way. -/
inductive Ended (D : Array (History Value)) : Flow → Flow → Prop
  | next : Ended D .next .next
  | ret (h : Shown D v v') : Ended D (.ret v) (.ret v')
  | breakLoop : Ended D .breakLoop .breakLoop
  | continueLoop : Ended D .continueLoop .continueLoop

/-- Statements that end in the same way, with machines in step; if they go on to the
next statement, the innermost frame has the names `L`. -/
def Leaves (c : Setting) (D : Array (History Value)) (ρ : Env) (T : Layout) (L : Names)
    (f f' : Flow) (m n : Machine) : Prop :=
  Ended D f f' ∧ ∃ L', InStep c D ρ (L' :: T) m n ∧ (f = .next → L' = L)

section Stmts

variable {c : Setting} {D : Array (History Value)} {ρ : Env} {T : Layout} {L L' : Names}
  {r : Ref} {host : Host}

theorem leaves_next {m n : Machine} (h : InStep c D ρ (L :: T) m n) :
    Leaves c D ρ T L .next .next m n :=
  ⟨.next, L, h, fun _ => rfl⟩

/-- **Loops run alike** if their tests, bodies and steps do. -/
theorem loop_runs {I : Machine → Machine → Prop} {test test' : Exec Bool} {body body' : Exec Flow}
    {step step' : Exec Unit} (limit left : Nat)
    (htest : Runs I test test' fun b b' m n => b = b' ∧ I m n)
    (hbody : Runs I body body' fun f f' m n => Ended D f f' ∧ I m n)
    (hstep : Runs I step step' fun _ _ m n => I m n) :
    Runs I (loop limit test body step left) (loop limit test' body' step' left) fun f f' m n =>
      Ended D f f' ∧ I m n := by
  induction left with
  | zero =>
    refine htest.bind fun b b' => runs_of fun hb => ?_
    subst hb
    cases b with
    | true => exact runs_fail _
    | false => exact runs_pure fun _ _ h => ⟨.next, h⟩
  | succ left ih =>
    refine htest.bind fun b b' => runs_of fun hb => ?_
    subst hb
    cases b with
    | false => exact runs_pure fun _ _ h => ⟨.next, h⟩
    | true =>
      refine hbody.bind fun f f' => runs_of fun hf => ?_
      cases hf with
      | next | continueLoop => exact hstep.bind fun _ _ => ih
      | breakLoop => exact runs_pure fun _ _ h => ⟨.next, h⟩
      | ret hv => exact runs_pure fun _ _ h => ⟨.ret hv, h⟩

/-- What follows a statement: more of them if it goes on to the next. -/
def follow (next : Exec Flow) : Flow → Exec Flow
  | .next => next
  | flow => return flow

theorem execList_cons (host : Host) (ρ : Env) (s : Stmt) (rest : List Stmt) :
    Stmt.execList host ρ (s :: rest) = s.exec host ρ >>= follow (Stmt.execList host ρ rest) := by
  rw [Stmt.execList]
  refine congrArg _ (funext fun flow => ?_)
  cases flow <;> rfl

theorem execList_singleton (host : Host) (ρ : Env) (s : Stmt) :
    Stmt.execList host ρ [s] = s.exec host ρ := by
  have hfollow : follow (Stmt.execList host ρ []) = pure := funext fun flow => by
    cases flow <;> rfl
  rw [execList_cons, hfollow, bind_pure]

theorem execList_append (host : Host) (ρ : Env) (a b : List Stmt) : Stmt.execList host ρ (a ++ b) =
      Stmt.execList host ρ a >>= follow (Stmt.execList host ρ b) := by
  induction a with
  | nil => rfl
  | cons s a ih =>
    rw [cons_append, execList_cons, execList_cons, bind_assoc, ih]
    refine congrArg _ (funext fun flow => ?_)
    cases flow <;> rfl

/-- Whether a statement declares no function. -/
def Stays : Stmt → Prop
  | .func _ => False
  | _ => True

theorem hoist_of_stays (ρ : Env) (h : ∀ s ∈ stmts, Stays s) : hoist ρ stmts = pure () := by
  induction stmts with
  | nil => rfl
  | cons s rest ih =>
    obtain ⟨hs, hrest⟩ := forall_mem_cons.1 h
    cases s with
    | func f => exact hs.elim
    | _ => exact ih hrest

theorem laidDecls_stays (h : LaidDecls c T L kind ds stmts L') : ∀ s ∈ stmts, Stays s := by
  induction h with
  | nil => exact fun _ hs => nomatch hs
  | slot _ _ _ _ ih => exact forall_mem_cons.2 ⟨trivial, ih⟩
  | read _ _ _ _ ih => exact forall_mem_cons.2 ⟨trivial, ih⟩

theorem laidStmt_stays (h : LaidStmt c T L s stmts L') : Stays s ∧ ∀ s ∈ stmts, Stays s := by
  cases h with
  | decl h => exact ⟨trivial, laidDecls_stays h⟩
  | _ => exact ⟨trivial, forall_mem_singleton.2 trivial⟩

theorem laidStmts_stays {stmts stmts' : List Stmt} {T : Layout} {L L' : Names}
    (h : LaidStmts c T L stmts stmts' L') : (∀ s ∈ stmts, Stays s) ∧ ∀ s ∈ stmts', Stays s := by
  match h with
  | .nil => exact ⟨fun _ hs => (nomatch hs), fun _ hs => (nomatch hs)⟩
  | .cons h hs =>
    obtain ⟨hs₁, hs₂⟩ := laidStmts_stays hs
    obtain ⟨h₁, h₂⟩ := laidStmt_stays h
    exact ⟨forall_mem_cons.2 ⟨h₁, hs₁⟩, forall_mem_append.2 ⟨h₂, hs₂⟩⟩

/-- The other branch of a choice, which may be missing. -/
def execAlternate (host : Host) (ρ : Env) : Option Stmt → Exec Flow
  | none => return .next
  | some s => s.exec host ρ

theorem exec_branch (host : Host) (ρ : Env) (t : Expr) (s : Stmt) (alternate : Option Stmt) :
    (Stmt.branch t s alternate).exec host ρ = (do
      let v ← t.eval host ρ
      if ← Exec.heap fun h => h.truthy v then s.exec host ρ
      else execAlternate host ρ alternate) := by
  cases alternate <;> rfl

theorem openFrame_inStep : Runs (InStep c D ρ T) (openFrame ρ) (openFrame ρ) fun ρ' ρ'' m n =>
    ∃ r, ρ' = r :: ρ ∧ ρ'' = r :: ρ ∧ InStep c D (r :: ρ) ([] :: T) m n := by
  rintro m n ⟨K, hmn⟩
  refine (openFrame_runs m n hmn).imp fun _ _ _ _ h => ?_
  obtain ⟨r, h, h', hmn⟩ := h
  exact ⟨r, h, h', K, hmn⟩

theorem InStep.close {m n : Machine} (hmn : InStep c D (r :: ρ) (L :: T) m n)
    (hroot : home? T c.root = some .context) : InStep c D ρ T m n := by
  obtain ⟨K, hmn⟩ := hmn
  exact ⟨K, hmn.close hroot⟩

theorem InStep.root {m n : Machine} (hmn : InStep c D ρ T m n) :
    home? T c.root = some .context := by
  obtain ⟨K, hmn⟩ := hmn
  exact hmn.root

theorem runs_leaves {x y : Exec Flow}
    (h : Runs (InStep c D ρ (L :: T)) x y fun f f' m n => Ended D f f' ∧
      InStep c D ρ (L :: T) m n) :
    Runs (InStep c D ρ (L :: T)) x y (Leaves c D ρ T L) :=
  h.weaken fun _ _ _ _ h => ⟨h.1, L, h.2, fun _ => rfl⟩

/-- The header of a loop declares its variable in a frame. -/
theorem start_runs {kind : DeclKind} {id : Ident} {e e' : Expr} {pos : Position}
    (he : Laid c ([] :: T) e e') (hnew : home? T id.name = none) :
    Runs (InStep c D (r :: ρ) ([] :: T))
      (ForInit.start host (r :: ρ) (some (.decl ⟨kind, [⟨.ident id, some e, pos⟩]⟩)))
      (ForInit.start host (r :: ρ) (some (.decl ⟨kind, [⟨.ident id, some e', pos⟩]⟩)))
      fun _ _ => InStep c D (r :: ρ) ([(id.name, .frame)] :: T) := by
  have hunknown : home? ([] :: T) id.name = none := hnew
  refine runs_inStep fun K => (eval_runs he).bind fun v v' => runs_of fun hv => ?_
  exact (defineName_runs hunknown hv).bind fun _ _ => runs_pure fun _ _ h => h

theorem rounds_runs {test test' update update' : Option Expr} {body body' : Stmt}
    (ht : LaidOpt c T test test') (hu : LaidOpt c T update update')
    (hbody : Runs (InStep c D ρ T) (body.exec host ρ) (body'.exec host ρ) fun f f' m n =>
      Ended D f f' ∧ InStep c D ρ T m n) :
    Runs (InStep c D ρ T) (Stmt.rounds host ρ test update body)
      (Stmt.rounds host ρ test' update' body') fun f f' m n =>
      Ended D f f' ∧ InStep c D ρ T m n := by
  refine loop_runs _ _ (results_inStep fun K => holds_runs ht) hbody ?_
  refine (results_inStep fun K => evalOpt_runs hu).bind fun _ _ => runs_of fun _ => ?_
  exact runs_pure fun _ _ h => h

mutual

/-- **Statements that are laid out run alike.** -/
theorem stmt_runs {T : Layout} {L L' : Names} {r : Ref} {ρ : Env} {s : Stmt} {stmts : List Stmt}
    (h : LaidStmt c T L s stmts L') :
    Runs (InStep c D (r :: ρ) (L :: T)) (s.exec host (r :: ρ)) (Stmt.execList host (r :: ρ) stmts)
      (Leaves c D (r :: ρ) T L') := by
  match h with
  | .decl h =>
    rw [← bind_pure (Stmt.execList host (r :: ρ) stmts)]
    refine (declarators_runs h).bind fun _ f => runs_of fun hf => ?_
    subst hf
    exact runs_pure fun _ _ h => leaves_next h
  | .expr h =>
    rw [execList_singleton]
    refine (results_inStep fun K => eval_runs h).bind fun _ _ => runs_of fun _ => ?_
    exact runs_pure fun _ _ h => leaves_next h
  | .branch ht hblock ha =>
    rw [execList_singleton, exec_branch, exec_branch]
    refine runs_leaves ?_
    refine (results_inStep fun K => eval_runs ht).bind fun v v' => runs_of fun hv => ?_
    refine (results_inStep fun K => truthy_runs hv).bind fun b b' => runs_of fun hb => ?_
    subst hb
    cases b with
    | true => exact block_runs hblock
    | false => exact alternate_runs ha
  | .forLoop he hnew ht hu hb =>
    rw [execList_singleton, Stmt.exec_forLoop, Stmt.exec_forLoop]
    refine runs_leaves (openFrame_inStep.bind fun ρ' ρ'' m n hopen => ?_)
    obtain ⟨q, rfl, rfl, hmn⟩ := hopen
    refine Together.imp (Runs.bind (start_runs he hnew)
      (fun _ _ => rounds_runs ht hu (block_runs hb)) m n hmn) fun _ _ _ _ h => ?_
    exact ⟨h.1, h.2.close hmn.root⟩
  | .whileLoop ht hb =>
    rw [execList_singleton]
    refine runs_leaves (loop_runs _ _ ?_ (block_runs hb) (runs_pure fun _ _ h => h))
    exact results_inStep fun K => holds_runs (.some ht)
  | .ret h =>
    rw [execList_singleton]
    refine (results_inStep fun K => evalOpt_runs h).bind fun v v' => runs_of fun hv => ?_
    exact runs_pure fun _ _ h => ⟨.ret hv, L, h, nofun⟩
  | .breakLoop => 
    rw [execList_singleton]
    exact runs_pure fun _ _ h => ⟨.breakLoop, L, h, nofun⟩
  | .continueLoop => 
    rw [execList_singleton]
    exact runs_pure fun _ _ h => ⟨.continueLoop, L, h, nofun⟩

theorem block_runs {T : Layout} {ρ : Env} {stmts stmts' : List Stmt}
    (h : LaidBlock c T stmts stmts') :
    Runs (InStep c D ρ T) ((Stmt.block stmts).exec host ρ) ((Stmt.block stmts').exec host ρ)
      fun f f' m n => Ended D f f' ∧ InStep c D ρ T m n := by
  match h with
  | .block h =>
    rw [Stmt.exec, Stmt.exec]
    refine openFrame_inStep.bind fun ρ' ρ'' m n hopen => ?_
    obtain ⟨r, rfl, rfl, hmn⟩ := hopen
    obtain ⟨hs, hs'⟩ := laidStmts_stays h
    rw [hoist_of_stays _ hs, hoist_of_stays _ hs', pure_bind, pure_bind]
    refine (list_runs h m n hmn).imp fun f f' m' n' hleaves => ?_
    obtain ⟨hended, L', hstep, -⟩ := hleaves
    exact ⟨hended, hstep.close hmn.root⟩

theorem alternate_runs {T : Layout} {ρ : Env} {alternate alternate' : Option Stmt}
    (h : LaidAlternate c T alternate alternate') :
    Runs (InStep c D ρ T) (execAlternate host ρ alternate) (execAlternate host ρ alternate')
      fun f f' m n => Ended D f f' ∧ InStep c D ρ T m n := by
  match h with
  | .none => exact runs_pure fun _ _ h => ⟨.next, h⟩
  | .some h => exact block_runs h

theorem list_runs {T : Layout} {L L' : Names} {r : Ref} {ρ : Env} {stmts stmts' : List Stmt}
    (h : LaidStmts c T L stmts stmts' L') :
    Runs (InStep c D (r :: ρ) (L :: T)) (Stmt.execList host (r :: ρ) stmts)
      (Stmt.execList host (r :: ρ) stmts') (Leaves c D (r :: ρ) T L') := by
  match h with
  | .nil => exact runs_pure fun _ _ h => leaves_next h
  | .cons h hs =>
    rw [execList_cons, execList_append]
    refine (stmt_runs h).bind fun f f' m n hleaves => ?_
    obtain ⟨hended, L'', hstep, hnext⟩ := hleaves
    cases hended with
    | next =>
      rw [hnext rfl] at hstep
      exact list_runs hs m n hstep
    | ret hv => exact .ok ⟨.ret hv, L'', hstep, nofun⟩
    | breakLoop => exact .ok ⟨.breakLoop, L'', hstep, nofun⟩
    | continueLoop => exact .ok ⟨.continueLoop, L'', hstep, nofun⟩

end

end Stmts

end Slotting

end BarScript

import BarScript.Proofs.Fuel.Completes

/-!
# Scripts come to an end

The constructs of the language complete, by induction on the tree; loops by induction on
the rounds that are left to them; calls by induction on the calls that may still be opened.
So every script comes to an end on some amount of fuel, and to the same end as in the
recursion on rounds and calls.
-/

namespace BarScript

open Machine Fueled Regime

namespace Fuel

variable {r : Rules} {R : Regime.Wide} {d : Nat}

variable {α : Type} {Q : α → Prop} {k : Nat} {l : List Mark}

/-- A host whose calls complete, with the limits of the rules. -/
structure Calls (r : Rules) (R : Regime.Wide) (d : Nat) (host : Host) : Prop where
  receiver : host.receiver = r.receiver
  rounds : host.rounds = r.rounds
  call : ∀ f env args, EndsAny r R d (fun n => call r n (.func f env) args) (host.call f env args)

theorem ends_any (hy : R.calm.Keeps Q y) : EndsAny r R d (fun _ => work y) y :=
  ends_work hy.any

theorem ends_heap (f : Heap → α) : EndsAny r R d (fun _ => work (Exec.heap f)) (Exec.heap f) :=
  ends_work (keeps_heap fun _ _ => trivial)

theorem ends_fail {e : RuntimeError} (he : e.IsCommon) :
    Ends r R d Q (fun _ => work (Exec.fail e)) (Exec.fail e) :=
  ends_work (keeps_fail he)

/-- The log of a loop after it has begun its body for the `k`-th time. -/
inductive AfterRound (r : Rules) (d k : Nat) : List Mark → Prop
  | intro (hb : InOrder r.rounds r.calls d body)
    (hr : Rounds r.rounds r.calls d k rest) : AfterRound r d k (body ++ rest)

theorem AfterRound.of_inOrder (h : InOrder r.rounds r.calls d l) : AfterRound r d k l :=
  List.append_nil l ▸ ⟨h, .stop .nil⟩

theorem AfterRound.after (h' : AfterRound r d k l')
    (h : InOrder r.rounds r.calls d l) : AfterRound r d k (l ++ l') := by
  obtain ⟨hb, hr⟩ := h'
  rw [← List.append_assoc]
  exact ⟨.append h hb, hr⟩

section Trees

variable {host : Host} (hR : R.Lax) (hh : Calls r R d host)

include hR

theorem calm_frames (fs : Array (Dict Value)) (hm : R.calm.inv m) :
    R.calm.inv { m with heap := { m.heap with frames := fs } } :=
  hR.frames fs hm

theorem calm_name (hm : R.inv m) (name : String) :
    R.calm.fails (.error (.unknownIdentifier name)) m :=
  ⟨hR.error _ hm, fun h => by cases h⟩

include hh

theorem callValue_ends (callee : Value) (args : List Value) :
    EndsAny r R d (fun n => call r n callee args) (callValue host callee args) := by
  have hargs : ∀ v ∈ args, R.calm.fits v := fun v _ => hR.fits v
  have hother : R.calm.KeepsAny (callValue host callee args) →
      (∀ n, call r (n + 1) callee args = work (callValue host callee args)) →
      EndsAny r R d (fun n => call r n callee args) (callValue host callee args) :=
    fun hkeeps hcall => Completes.succ (fun n _ => congrFun (hcall n) _) (ends_work hkeeps)
  cases callee with
  | func f env => exact hh.call f env args
  | native ns name =>
    refine hother (call_keeps ns name hargs ?_).any fun _ => rfl
    exact fun _ _ _ m hm => ⟨hR.error _ hm, fun h => by cases h⟩
  | contextFn f =>
    refine hother (contextFn_keeps host f hargs).any fun _ => ?_
    cases f <;> rfl
  | _ => exact hother (keeps_uncallable _) fun _ => rfl

set_option linter.unusedSectionVars false -- used through other members

mutual

/-- **Expressions** complete. -/
theorem eval_ends (e : Expr) (env : Env) :
    EndsAny r R d (fun n => eval r n env e) (e.eval host env) := by
  match e with
  | .number _ | .str _ | .bool _ | .null | .undefined | .func _ =>
    exact .next (ends_pure trivial)
  | .ident id =>
    refine .next
      (ends_any (readName_keeps env id.name (fun _ v _ _ => hR.fits v) ?_))
    exact fun _ hm _ _ => calm_name hR hm id.name
  | .this =>
    rw [Expr.eval, hh.receiver]
    exact .next (ends_pure trivial)
  | .member base property =>
    refine .next ?_
    exact (eval_ends base env).bind fun v _ => ends_any (readMember_keeps v property)
  | .index base sub =>
    refine .next ?_
    refine (eval_ends base env).bind fun b _ => ?_
    exact (eval_ends sub env).bind fun i _ => ends_any (readElement_keeps b i)
  | .call callee args =>
    refine .next ?_
    refine (eval_ends callee env).bind fun v _ => ?_
    exact (evalList_ends args env).bind fun vs _ => callValue_ends hR hh v vs
  | .unary op arg =>
    refine .next ?_
    exact (eval_ends arg env).bind fun v _ => ends_heap _
  | .update op first target =>
    refine .next ?_
    refine (eval_ends target env).bind fun v _ => ?_
    refine (ends_heap fun h => h.number v).bind fun old _ => ?_
    exact (write_ends target env _).bind fun _ _ => ends_pure trivial
  | .binary op left right =>
    refine .next ?_
    refine (eval_ends left env).bind fun x _ => ?_
    exact (eval_ends right env).bind fun y _ => ends_any (keeps_binary op x y)
  | .logical op left right =>
    refine .next ?_
    refine (eval_ends left env).bind fun x _ => ?_
    refine (ends_heap fun h => h.settles op x).bind fun b _ => ?_
    cases b with
    | true => exact ends_pure trivial
    | false => exact eval_ends right env
  | .conditional test consequent alternate =>
    refine .next ?_
    refine (eval_ends test env).bind fun v _ => ?_
    refine (ends_heap fun h => h.truthy v).bind fun b _ => ?_
    cases b with
    | true => exact eval_ends consequent env
    | false => exact eval_ends alternate env
  | .assign op target value =>
    refine .next ?_
    refine (eval_ends value env).bind fun rhs _ => ?_
    have hstore : ∀ v, EndsAny r R d (fun n => do write r n env v target; return v)
        (do target.write host env v; return v) := fun v =>
      (write_ends target env v).bind fun _ _ => ends_pure trivial
    cases op.binary? with
    | none => exact Ends.bind (ends_pure (Q := fun _ => True) trivial) fun v _ => hstore v
    | some bop =>
      refine (eval_ends target env).bind fun old _ => ?_
      exact (ends_any (keeps_binary bop old rhs)).bind fun v _ => hstore v
  | .array items =>
    refine .next ?_
    exact (evalCurrent_ends items env).bind fun vs hvs => ends_any (newArray_keeps hvs)
  | .object props =>
    refine .next ?_
    exact (evalFields_ends props env).bind fun fs hfs => ends_any (newObject_keeps hfs)

theorem write_ends (e : Expr) (env : Env) (v : Value) :
    EndsAny r R d (fun n => write r n env v e) (e.write host env v) := by
  match e with
  | .ident id =>
    refine .next (ends_work (assignName_keeps (calm_frames hR) env id.name v ?_))
    exact fun _ hm _ => calm_name hR hm id.name
  | .member base property =>
    refine .next ?_
    exact (eval_ends base env).bind fun b _ =>
      ends_work (writeMember_keeps b property (hR.fits v))
  | .index base sub =>
    refine .next ?_
    refine (eval_ends base env).bind fun b _ => ?_
    exact (eval_ends sub env).bind fun i _ => ends_store hR b i v
  | .number _ | .str _ | .bool _ | .null | .undefined | .this | .call _ _ | .unary _ _
  | .update _ _ _ | .binary _ _ _ | .logical _ _ _ | .conditional _ _ _ | .assign _ _ _
  | .array _ | .object _ | .func _ =>
    exact .next (ends_fail trivial)

theorem evalList_ends (es : List Expr) (env : Env) :
    EndsAny r R d (fun n => evalList r n env es) (Expr.evalList host env es) := by
  match es with
  | [] => exact .next (ends_pure trivial)
  | e :: rest =>
    refine .next ?_
    refine (eval_ends e env).bind fun v _ => ?_
    exact (evalList_ends rest env).bind fun vs _ => ends_pure trivial

theorem evalCurrent_ends (es : List Expr) (env : Env) :
    Ends r R d (fun vs => ∀ v ∈ vs, R.stores v) (fun n => evalCurrent r n env es)
      (Expr.evalCurrent host env es) := by
  match es with
  | [] => exact .next (ends_pure fun _ hv => by cases hv)
  | e :: rest =>
    refine .next ?_
    refine (eval_ends e env).bind fun v _ => ?_
    refine Ends.bind (ends_work (keeps_current (hR.fits v))) fun u hu => ?_
    exact (evalCurrent_ends rest env).bind fun vs hvs =>
      ends_pure (List.forall_mem_cons.2 ⟨hu, hvs⟩)

theorem evalFields_ends (ps : List (String × Expr)) (env : Env) :
    Ends r R d (fun fs => ∀ f ∈ fs, R.stores f.2) (fun n => evalFields r n env ps)
      (Expr.evalFields host env ps) := by
  match ps with
  | [] => exact .next (ends_pure fun _ hv => by cases hv)
  | (k, e) :: rest =>
    refine .next ?_
    refine (eval_ends e env).bind fun v _ => ?_
    refine Ends.bind (ends_work (keeps_current (hR.fits v))) fun u hu => ?_
    exact (evalFields_ends rest env).bind fun fs hfs =>
      ends_pure (List.forall_mem_cons.2 ⟨hu, hfs⟩)

end

variable {env : Env} {test update : Option Expr} {body : Stmt}

theorem evalOpt_ends (e? : Option Expr) (env : Env) :
    EndsAny r R d (fun n => evalOpt r n env e?) (Expr.evalOpt host env e?) := by
  cases e? with
  | none => exact .next (ends_pure trivial)
  | some e => exact .next (eval_ends hR hh e env)

theorem declare_ends (ds : List Declarator) (env : Env) :
    EndsAny r R d (fun n => declare r n env ds) (Declarator.declare host env ds) := by
  induction ds with
  | nil => exact .next (ends_pure trivial)
  | cons dec rest ih =>
    obtain ⟨target, init, pos⟩ := dec
    refine .next ?_
    refine (evalOpt_ends hR hh init env).bind fun v _ => ?_
    exact Ends.bind (ends_work (bindPattern_keeps (calm_frames hR) env target v)) fun _ _ => ih

theorem start_ends (init : Option ForInit) (env : Env) :
    EndsAny r R d (fun n => start r n env init) (ForInit.start host env init) := by
  refine .next ?_
  cases init with
  | none => exact ends_pure trivial
  | some init =>
    cases init with
    | decl d =>
      obtain ⟨_, ds⟩ := d
      exact declare_ends hR hh ds env
    | expr e => exact (eval_ends hR hh e env).bind fun _ _ => ends_pure trivial

theorem holds_ends (test : Option Expr) (env : Env) :
    EndsAny r R d (fun n => holds r n env test) (Expr.holds host env test) := by
  cases test with
  | none => exact .next (ends_pure trivial)
  | some e =>
    refine .next ?_
    exact (eval_ends hR hh e env).bind fun v _ => ends_heap _

/-! ## Loops -/

omit hR hh in
theorem loop_body (hbody : EndsAny r R d (fun n => exec r n env body) (body.exec host env))
    (hupdate : EndsAny r R d (fun n => evalOpt r n env update) (Expr.evalOpt host env update))
    (hrest : Completes R d (Rounds r.rounds r.calls d k) (fun _ => True)
      (fun n => loop r n count env test body update)
      (Machine.loop host.rounds (Expr.holds host env test) (body.exec host env)
        (do let _ ← Expr.evalOpt host env update) left)) :
    Completes R d (AfterRound r d k) (fun _ => True)
      (fun n => do
        match ← exec r n env body with
        | .breakLoop => return .next
        | .ret v => return .ret v
        | .next | .continueLoop => do
          let _ ← evalOpt r n env update
          loop r n count env test body update)
      (do
        match ← body.exec host env with
        | .breakLoop => return .next
        | .ret v => return .ret v
        | .next | .continueLoop => do
          (do let _ ← Expr.evalOpt host env update)
          Machine.loop host.rounds (Expr.holds host env test) (body.exec host env)
            (do let _ ← Expr.evalOpt host env update) left) := by
  have hstop : EndsAny r R d (fun _ => pure Flow.next) (pure Flow.next) := ends_pure trivial
  have hon : Completes R d (AfterRound r d k) (fun _ => True)
      (fun n => do
        let _ ← evalOpt r n env update
        loop r n count env test body update)
      (do
        (do let _ ← Expr.evalOpt host env update)
        Machine.loop host.rounds (Expr.holds host env test) (body.exec host env)
          (do let _ ← Expr.evalOpt host env update) left) := by
    simp only [bind_assoc, pure_bind]
    exact Completes.bind hupdate (fun _ _ => hrest) (fun _ h => .of_inOrder h)
      fun _ _ h h' => ⟨h, h'⟩
  refine Completes.bind hbody (fun flow _ => ?_) (fun _ h => .of_inOrder h)
    fun _ _ h h' => AfterRound.after h' h
  cases flow with
  | next | continueLoop => exact hon
  | ret v => exact Completes.mono (ends_pure trivial) (fun _ h => .of_inOrder h) fun _ h => h
  | breakLoop => exact Completes.mono hstop (fun _ h => .of_inOrder h) fun _ h => h

variable (hnext : ∀ k ≤ r.rounds, r.next k = k + 1)

include hnext

omit hR in
/-- **Loops** complete, by induction on the rounds that are left. -/
theorem loop_ends (htest : EndsAny r R d (fun n => holds r n env test) (Expr.holds host env test))
    (hbody : EndsAny r R d (fun n => exec r n env body) (body.exec host env))
    (hupdate : EndsAny r R d (fun n => evalOpt r n env update) (Expr.evalOpt host env update))
    (left : Nat) : ∀ count, count + left = r.rounds →
      Completes R d (Rounds r.rounds r.calls d count) (fun _ => True)
        (fun n => loop r n count env test body update)
        (Machine.loop host.rounds (Expr.holds host env test) (body.exec host env)
          (do let _ ← Expr.evalOpt host env update) left) := by
  have hend : EndsAny r R d (fun _ => pure Flow.next) (pure Flow.next) := ends_pure trivial
  induction left with
  | zero =>
    intro count hcount
    have hlimit : r.rounds < r.next count := by
      rw [hnext count (by omega)]
      omega
    refine .next ?_
    refine Completes.bind htest (fun b _ => ?_) (fun _ h => .stop h) fun _ _ h h' =>
      .stop (.append h h')
    cases b with
    | true =>
      simp only [if_true, if_pos hlimit]
      rw [hh.rounds]
      exact ends_fail trivial
    | false => exact hend
  | succ left ih =>
    intro count hcount
    have hone := hnext count (by omega)
    have hlimit : ¬ r.rounds < r.next count := by
      rw [hone]
      omega
    have hrest := ih (count + 1) (by omega)
    rw [← hone] at hrest
    refine .next ?_
    refine Completes.bind (M := fun l => InOrder r.rounds r.calls d l ∨
        ∃ l', l = .round (r.next count) :: l' ∧ AfterRound r d (r.next count) l')
      htest (fun b _ => ?_) (fun _ h => .stop h) ?_
    · cases b with
      | true =>
        simp only [if_true, if_neg hlimit]
        exact Completes.note (fun _ _ => trivial) (fun _ => id) (loop_body hbody hupdate hrest)
          fun _ l h => .inr ⟨l, rfl, h⟩
      | false => exact Completes.mono hend (fun _ h => .inl h) fun _ h => h
    · rw [hone]
      rintro l l' h (h' | ⟨l', rfl, ⟨hb, hr⟩⟩)
      · exact .stop (.append h h')
      · exact .turn (by omega) h hb hr

theorem rounds_ends (test update : Option Expr)
    (hbody : EndsAny r R d (fun n => exec r n env body) (body.exec host env)) :
    EndsAny r R d (fun n => loop r n 0 env test body update)
      (Stmt.rounds host env test update body) := by
  have hloop := loop_ends hh hnext (holds_ends hR hh test env) hbody
    (evalOpt_ends hR hh update env) host.rounds 0 ((Nat.zero_add _).trans hh.rounds)
  exact Completes.mono hloop (fun _ h => .loop h) fun _ h => h

mutual

/-- **Statements** complete. -/
theorem exec_ends (s : Stmt) (env : Env) :
    EndsAny r R d (fun n => exec r n env s) (s.exec host env) := by
  match s with
  | .decl ⟨_, ds⟩ =>
    refine .next ?_
    exact (declare_ends hR hh ds env).bind fun _ _ => ends_pure trivial
  | .expr e =>
    refine .next ?_
    exact (eval_ends hR hh e env).bind fun _ _ => ends_pure trivial
  | .branch test consequent none =>
    refine .next ?_
    refine (eval_ends hR hh test env).bind fun v _ => ?_
    refine (ends_heap fun h => h.truthy v).bind fun b _ => ?_
    cases b with
    | true => exact exec_ends consequent env
    | false => exact ends_pure trivial
  | .branch test consequent (some alternate) =>
    refine .next ?_
    refine (eval_ends hR hh test env).bind fun v _ => ?_
    refine (ends_heap fun h => h.truthy v).bind fun b _ => ?_
    cases b with
    | true => exact exec_ends consequent env
    | false => exact exec_ends alternate env
  | .forLoop init test update body =>
    rw [Stmt.exec_forLoop]
    refine .next ?_
    refine Ends.bind (ends_work (openFrame_keeps (calm_frames hR) env)) fun env _ => ?_
    refine (start_ends hR hh init env).bind fun _ _ => ?_
    exact rounds_ends hR hh hnext test update (exec_ends body env)
  | .whileLoop test body =>
    exact .next (rounds_ends hR hh hnext (some test) none (exec_ends body env))
  | .block stmts =>
    refine .next ?_
    refine Ends.bind (ends_work (openFrame_keeps (calm_frames hR) env)) fun env _ => ?_
    refine Ends.bind (ends_work (hoist_keeps (calm_frames hR) env stmts)) fun _ _ => ?_
    exact execList_ends stmts env
  | .ret arg =>
    refine .next ?_
    exact (evalOpt_ends hR hh arg env).bind fun _ _ => ends_pure trivial
  | .breakLoop | .continueLoop | .func _ | .empty =>
    exact .next (ends_pure trivial)

theorem execList_ends (stmts : List Stmt) (env : Env) :
    EndsAny r R d (fun n => execList r n env stmts) (Stmt.execList host env stmts) := by
  match stmts with
  | [] => exact .next (ends_pure trivial)
  | s :: rest =>
    refine .next ?_
    refine (exec_ends s env).bind fun flow _ => ?_
    cases flow with
    | next => exact execList_ends rest env
    | ret | breakLoop | continueLoop => exact ends_pure trivial

end

/-- **Functions** complete. -/
theorem apply_ends (f : Func) (env : Env) (args : List Value) :
    EndsAny r R d (fun n => apply r n f env args) (Machine.apply host f env args) := by
  obtain ⟨name, params, body, style, pos⟩ := f
  refine .next ?_
  refine Ends.bind (ends_work (newFrame_keeps (calm_frames hR) _)) fun frame _ => ?_
  cases body with
  | expr e => exact eval_ends hR hh e _
  | block stmts =>
    refine Ends.bind (ends_work (hoist_keeps (calm_frames hR) _ stmts)) fun _ _ => ?_
    refine (execList_ends hR hh hnext stmts _).bind fun flow _ => ?_
    cases flow with
    | next | ret => exact ends_pure trivial
    | breakLoop => exact ends_fail trivial
    | continueLoop => exact ends_fail trivial

end Trees

/-! ## Calls and whole runs -/

variable (hR : R.Lax)

include hR

/-- **Calls** complete, by induction on those that may still be opened. -/
theorem callWithin_calls (hnext : ∀ k ≤ r.rounds, r.next k = k + 1) (left : Nat) :
    ∀ d, d + left = r.calls → Calls r R d
      ⟨r.receiver, r.rounds, callWithin r.receiver r.rounds r.calls left⟩ := by
  induction left with
  | zero =>
    intro d hd
    have hfull : r.calls ≤ d := by omega
    refine ⟨rfl, rfl, fun f env args => Completes.succ (fun _ _ => if_pos hfull) ?_⟩
    exact ends_fail trivial
  | succ left ih =>
    intro d hd
    have hopen : ¬ r.calls ≤ d := by omega
    refine ⟨rfl, rfl, fun f env args => Completes.succ (fun _ _ => if_neg hopen) ?_⟩
    exact Ends.nested (Nat.lt_of_not_le hopen)
      (apply_ends hR (ih (d + 1) (by omega)) hnext f env args)

section Settings

variable {next : Nat → Nat} {config : Config} (hconfig : ∀ {m}, R.inv m → m.context.config = config)
  (hnext : ∀ k ≤ config.maxLoopIterations, next k = k + 1)

include hconfig hnext

/-- **Scripts** complete. -/
theorem run_ends (receiver : Value) (p : Program) :
    EndsAny (rules next receiver config) R 0 (fun n => run next n receiver p)
      (Machine.run receiver p) := by
  have hcalls := callWithin_calls (r := rules next receiver config) hR hnext
    config.maxCallDepth 0 (Nat.zero_add _)
  refine Ends.bind (Q := (· = config))
    (ends_work (keeps_context fun _ hm => hconfig hm)) fun _ hc => ?_
  subst hc
  refine Ends.bind (ends_work (newFrame_keeps (calm_frames hR) _)) fun frame _ => ?_
  exact apply_ends hR hcalls hnext p.root [frame] [.context]

theorem bar_ends (ind : Indicator) (c : Candle) :
    EndsAny (rules next ind.receiver config) R 0 (fun n => bar next n ind c) (ind.bar c) := by
  refine Ends.bind (ends_work (beginStep_keeps c)) fun _ _ => ?_
  refine Ends.bind (run_ends hR hconfig hnext ind.receiver ind.program) fun v _ => ?_
  exact Completes.note (fun _ hm => hm) (fun _ => id) (ends_work (keeps_collapsed v))
    fun s _ h => .append (.gave s.machine v) h

/-- **Whole runs** complete. -/
theorem rows_ends (ind : Indicator) (cs : List Candle) :
    EndsAny (rules next ind.receiver config) R 0 (fun n => rows next n ind cs) (ind.rows cs) := by
  induction cs with
  | nil => exact ends_pure trivial
  | cons c cs ih =>
    refine Ends.bind (bar_ends hR hconfig hnext ind c) fun v _ => ?_
    exact ih.bind fun _ _ => ends_pure trivial

end Settings

end Fuel

end BarScript

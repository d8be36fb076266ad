import BarScript.Proofs.Regime.Work
import BarScript.Proofs.Trace.Basic

/-!
# Traced runs against plain ones

A fact that compares a traced run with a plain run, ending by ending, is proved by
going through the constructs of the language. `Tracking` says what has to be known for
this: the comparison is kept by sequences, and it holds of every reading and every
change of the machine. Then it holds of expressions, statements, functions and whole
runs.

Arguments of calls are carried together with what they showed, so a comparison is
made up to a map of the results. It may tell something of the results: that a current
value is one that arrays and objects can hold.
-/

namespace BarScript

open Machine Traced

/-- A comparison of traced runs with plain ones. -/
structure Tracking where
  /-- A traced run compares with a plain one, up to a map of the results, and these
  satisfy a condition. -/
  Tracks : {α β : Type} → (α → β) → (α → Prop) → Traced α → Exec β → Prop
  /-- What arrays and objects can hold. -/
  Held : Value → Prop
  /-- What the plain run has for the settings of the traced one. -/
  settings : Config → Config
  result : ∀ {α β : Type} {p : α → β} {P : α → Prop} {a : α} {b : β}, p a = b → P a →
    Tracks p P (pure a) (pure b)
  bind : ∀ {α β γ δ : Type} {p : α → β} {P : α → Prop} {q : γ → δ} {Q : γ → Prop}
    {x : Traced α} {y : Exec β} {f : α → Traced γ} {g : β → Exec δ}, Tracks p P x y →
    (∀ a, P a → Tracks q Q (f a) (g (p a))) → Tracks q Q (x >>= f) (y >>= g)
  fail : ∀ {α : Type} {P : α → Prop} {e : RuntimeError}, e.IsCommon →
    Tracks id P (quiet (Exec.fail e)) (Exec.fail e)
  uncallable : ∀ {P : Value → Prop} (v : Value), Tracks id P
    (quiet do Exec.fail (.notCallable (← Exec.heap? fun h => h.debug? v)))
    (do Exec.fail (.notCallable (← Exec.heap? fun h => h.debug? v)))
  /-- To tell that something stirs changes nothing. -/
  stir : ∀ {γ δ : Type} {q : γ → δ} {Q : γ → Prop} {f : Unit → Traced γ} {y : Exec δ},
    Tracks q Q (f ()) y → Tracks q Q (stir >>= f) y
  /-- To listen for touches changes nothing. -/
  overheard : ∀ {α β : Type} {p : α → β} {P : α → Prop} {x : Traced α} {y : Exec β},
    Tracks p P x y → Tracks (fun r => p r.1) (fun r => P r.1) (overheard x) y
  /-- What an argument shows is looked at and changes nothing. -/
  peek : ∀ {γ δ : Type} {q : γ → δ} {Q : γ → Prop} {f : Value → Traced γ} {y : Exec δ} (v : Value),
    (∀ u, Tracks q Q (f u) y) → Tracks q Q (quiet (Exec.heap fun h => h.current v) >>= f) y
  current : ∀ v, Tracks id Held (Traced.current v) (Exec.heap fun h => h.current v)
  truthy : ∀ v, Tracks id (fun _ => True) (Traced.truthy v) (Exec.heap fun h => h.truthy v)
  number : ∀ v, Tracks id (fun _ => True)
    (reading (fun _ => v.viewed) (Exec.heap fun h => h.number v)) (Exec.heap fun h => h.number v)
  unary : ∀ op v, Tracks id (fun _ => True)
    (reading (fun _ => v.viewed) (Exec.heap fun h => h.unary op v))
    (Exec.heap fun h => h.unary op v)
  settles : ∀ op v, Tracks id (fun _ => True)
    (reading (fun _ => v.viewed) (Exec.heap fun h => h.settles op v))
    (Exec.heap fun h => h.settles op v)
  binary : ∀ op l r, Tracks id (fun _ => True) (Traced.binary op l r)
    (Exec.heap? fun h => h.binary? op l r)
  readName : ∀ env x,
    Tracks id (fun _ => True) (Traced.readName env x) (Machine.readName env x)
  readMember : ∀ base property, Tracks id (fun _ => True) (Traced.readMember base property)
    (Machine.readMember base property)
  readElement : ∀ base index, Tracks id (fun _ => True) (Traced.readElement base index)
    (Machine.readElement base index)
  writeMember : ∀ base property v, Tracks id (fun _ => True) (Traced.writeMember base property v)
    (Machine.writeMember base property v)
  writeElement : ∀ base index v, Tracks id (fun _ => True) (Traced.writeElement base index v)
    (Machine.writeElement base index v)
  bindPattern : ∀ env target v, Tracks id (fun _ => True) (Traced.bindPattern env target v)
    (Machine.bindPattern env target v)
  assignName : ∀ env name v,
    Tracks id (fun _ => True) (quiet (assignName env name v)) (assignName env name v)
  openFrame : ∀ env, Tracks id (fun _ => True) (quiet (openFrame env)) (openFrame env)
  hoist : ∀ env stmts, Tracks id (fun _ => True) (quiet (hoist env stmts)) (hoist env stmts)
  newFrame : ∀ d, Tracks id (fun _ => True) (quiet (Exec.alloc fun h => h.newFrame d))
    (Exec.alloc fun h => h.newFrame d)
  newArray : ∀ vs : List Value, (∀ v ∈ vs, Held v) → Tracks id (fun _ => True)
    (quiet (Exec.alloc fun h => h.newArray vs.toArray)) (Exec.alloc fun h => h.newArray vs.toArray)
  newObject : ∀ fields : List (String × Value), (∀ f ∈ fields, Held f.2) →
    Tracks id (fun _ => True) (quiet (Exec.alloc fun h => h.newObject (.ofList fields)))
      (Exec.alloc fun h => h.newObject (.ofList fields))
  contextCall : ∀ f host args, Tracks id (fun _ => True) (Traced.contextCall f args)
    (Machine.callValue host (.contextFn f) args)
  native : ∀ host site ns name args, Tracks id (fun _ => True)
    (Traced.callValue host site (.native ns name) args)
    (Library.call ns name (args.map Argument.value))
  config : Tracks settings (fun _ => True) (quiet (Exec.context fun c => c.config))
    (Exec.context fun c => c.config)
  rounds : ∀ config, (settings config).maxLoopIterations = config.maxLoopIterations
  depth : ∀ config, (settings config).maxCallDepth = config.maxCallDepth
  beginStep : ∀ candle, Tracks id (fun _ => True)
    (watch (fun _ _ => [.touch .began]) (beginStep candle)) (beginStep candle)
  collapsed : ∀ v, Tracks id (fun _ => True)
    (reading (fun _ => v.viewed) (Exec.heap? fun h => h.collapsed? v))
    (Exec.heap? fun h => h.collapsed? v)

theorem Config.rounds_id (config : Config) :
    (id config).maxLoopIterations = config.maxLoopIterations := rfl

theorem Config.depth_id (config : Config) : (id config).maxCallDepth = config.maxCallDepth := rfl

namespace Tracking

variable (T : Tracking) {α : Type}

/-- A traced run compares with a plain one that gives the same. -/
abbrev Runs (x : Traced α) (y : Exec α) : Prop :=
  T.Tracks id (fun _ => True) x y

/-- Hosts whose calls compare. -/
structure Hosts (host : TracedHost) (plain : Host) : Prop where
  receiver : host.receiver = plain.receiver
  rounds : host.rounds = plain.rounds
  call : ∀ f env args, T.Runs (host.call f env args) (plain.call f env args)

variable {T}

theorem runs_pure (a : α) : T.Runs (pure a) (pure a) :=
  T.result rfl trivial

theorem callValue_runs (hh : T.Hosts host plain) (site : Expr)
    (callee : Value) (args : List Argument) : T.Runs (Traced.callValue host site callee args)
      (Machine.callValue plain callee (args.map Argument.value)) := by
  cases callee with
  | func f env => exact T.stir (hh.call f env _)
  | native ns name => exact T.native host site ns name args
  | contextFn f =>
    have hcall := T.contextCall f plain (args.map Argument.value)
    cases f with
    | param =>
      unfold Traced.callValue
      cases site.wrapKey?.isSome with
      | true => exact hcall
      | false => exact T.stir hcall
    | init | precision => exact T.stir hcall
  | _ => exact T.uncallable _

theorem loop_runs (htest : T.Runs test test')
    (hbody : T.Runs body body') (hstep : T.Runs step step') (left : Nat) :
    T.Runs (Traced.loop limit test body step left) (Machine.loop limit test' body' step' left) := by
  induction left with
  | zero =>
    refine T.bind htest fun b _ => ?_
    cases b with
    | true => exact T.fail trivial
    | false => exact runs_pure _
  | succ left ih =>
    refine T.bind htest fun b _ => ?_
    cases b with
    | false => exact runs_pure _
    | true =>
      refine T.bind hbody fun flow _ => ?_
      have hon : T.Runs (do step; Traced.loop limit test body step left)
          (do step'; Machine.loop limit test' body' step' left) := T.bind hstep fun _ _ => ih
      cases flow with
      | next | continueLoop => exact hon
      | ret | breakLoop => exact runs_pure _

section Trees

variable {host : TracedHost} {plain : Host} (hh : T.Hosts host plain)

include hh

set_option linter.unusedSectionVars false -- used through other members

mutual

/-- **Expressions** compare. -/
theorem expr (e : Expr) (env : Env) : T.Runs (e.trace host env) (e.eval plain env) := by
  match e with
  | .number _ | .str _ | .bool _ | .null | .undefined | .func _ => exact runs_pure _
  | .ident id => exact T.readName env id.name
  | .this => exact T.result hh.receiver trivial
  | .member base property =>
    exact T.bind (expr base env) fun _ _ => T.readMember _ _
  | .index base sub =>
    refine T.bind (expr base env) fun _ _ => ?_
    exact T.bind (expr sub env) fun _ _ => T.readElement _ _
  | .call callee args =>
    refine T.bind (expr callee env) fun v _ => ?_
    exact T.bind (arguments args env) fun vs _ => callValue_runs hh _ v vs
  | .unary op arg => exact T.bind (expr arg env) fun _ _ => T.unary _ _
  | .update op first target =>
    refine T.bind (expr target env) fun _ _ => ?_
    refine T.bind (T.number _) fun old _ => ?_
    exact T.bind (write target env _) fun _ _ => runs_pure _
  | .binary op left right =>
    refine T.bind (expr left env) fun _ _ => ?_
    exact T.bind (expr right env) fun _ _ => T.binary _ _ _
  | .logical op left right =>
    refine T.bind (expr left env) fun l _ => ?_
    refine T.bind (T.settles op l) fun b _ => ?_
    cases b with
    | true => exact runs_pure _
    | false => exact expr right env
  | .conditional test consequent alternate =>
    refine T.bind (expr test env) fun _ _ => ?_
    refine T.bind (T.truthy _) fun b _ => ?_
    cases b with
    | true => exact expr consequent env
    | false => exact expr alternate env
  | .assign op target value =>
    refine T.bind (expr value env) fun rhs _ => ?_
    have hstore : ∀ v, T.Runs (do target.traceWrite host env v; return v)
        (do target.write plain env v; return v) := fun v =>
      T.bind (write target env v) fun _ _ => runs_pure _
    cases op.binary? with
    | none => exact hstore rhs
    | some bop =>
      refine T.bind (expr target env) fun old _ => ?_
      exact T.bind (T.binary bop old rhs) fun v _ => hstore v
  | .array items => exact T.bind (currents items env) fun vs hvs => T.newArray vs hvs
  | .object props => exact T.bind (fields props env) fun fs hfs => T.newObject fs hfs

theorem write (e : Expr) (env : Env) (v : Value) :
    T.Runs (e.traceWrite host env v) (e.write plain env v) := by
  match e with
  | .ident id => exact T.stir (T.assignName env id.name v)
  | .member base property =>
    exact T.stir (T.bind (expr base env) fun _ _ => T.writeMember _ _ _)
  | .index base sub =>
    refine T.stir (T.bind (expr base env) fun _ _ => ?_)
    exact T.bind (expr sub env) fun _ _ => T.writeElement _ _ _
  | .number _ | .str _ | .bool _ | .null | .undefined | .this | .call _ _ | .unary _ _
  | .update _ _ _ | .binary _ _ _ | .logical _ _ _ | .conditional _ _ _ | .assign _ _ _
  | .array _ | .object _ | .func _ => exact T.fail trivial

theorem arguments (es : List Expr) (env : Env) :
    T.Tracks (List.map Argument.value) (fun _ => True) (Expr.traceArgs host env es)
      (Expr.evalList plain env es) := by
  match es with
  | [] => exact T.result rfl trivial
  | e :: rest =>
    refine T.bind (expr e env) fun v _ => T.peek v fun u => ?_
    exact T.bind (T.overheard (arguments rest env)) fun _ _ => T.result rfl trivial

theorem currents (es : List Expr) (env : Env) :
    T.Tracks id (fun vs => ∀ v ∈ vs, T.Held v) (Expr.traceCurrent host env es)
      (Expr.evalCurrent plain env es) := by
  match es with
  | [] => exact T.result rfl fun _ hv => by cases hv
  | e :: rest =>
    refine T.bind (expr e env) fun v _ => ?_
    refine T.bind (T.current v) fun u hu => ?_
    exact T.bind (currents rest env) fun vs hvs => T.result rfl (List.forall_mem_cons.2 ⟨hu, hvs⟩)

theorem fields (ps : List (String × Expr)) (env : Env) :
    T.Tracks id (fun fs => ∀ f ∈ fs, T.Held f.2) (Expr.traceFields host env ps)
      (Expr.evalFields plain env ps) := by
  match ps with
  | [] => exact T.result rfl fun _ hf => by cases hf
  | (k, e) :: rest =>
    refine T.bind (expr e env) fun v _ => ?_
    refine T.bind (T.current v) fun u hu => ?_
    exact T.bind (fields rest env) fun fs hfs => T.result rfl (List.forall_mem_cons.2 ⟨hu, hfs⟩)

end

theorem opt (e? : Option Expr) (env : Env) :
    T.Runs (Expr.traceOpt host env e?) (Expr.evalOpt plain env e?) := by
  cases e? with
  | none => exact runs_pure _
  | some e => exact expr hh e env

theorem declarators (ds : List Declarator) (env : Env) :
    T.Runs (Declarator.trace host env ds) (Declarator.declare plain env ds) := by
  induction ds with
  | nil => exact runs_pure _
  | cons d rest ih =>
    obtain ⟨target, init, pos⟩ := d
    refine T.bind (opt hh init env) fun v _ => ?_
    exact T.bind (T.bindPattern env target v) fun _ _ => ih

theorem holds (test : Option Expr) (env : Env) :
    T.Runs (Expr.traceHolds host env test) (Expr.holds plain env test) := by
  cases test with
  | none => exact runs_pure _
  | some e => exact T.bind (expr hh e env) fun _ _ => T.truthy _

theorem start (init : Option ForInit) (env : Env) :
    T.Runs (ForInit.trace host env init) (ForInit.start plain env init) := by
  cases init with
  | none => exact runs_pure _
  | some init =>
    cases init with
    | decl d =>
      obtain ⟨_, ds⟩ := d
      exact declarators hh ds env
    | expr e => exact T.bind (expr hh e env) fun _ _ => runs_pure _

mutual

/-- **Statements** compare. -/
theorem stmt (s : Stmt) (env : Env) : T.Runs (s.trace host env) (s.exec plain env) := by
  match s with
  | .decl ⟨_, ds⟩ => exact T.bind (declarators hh ds env) fun _ _ => runs_pure _
  | .expr e => exact T.bind (expr hh e env) fun _ _ => runs_pure _
  | .branch test consequent none =>
    refine T.bind (expr hh test env) fun _ _ => ?_
    refine T.bind (T.truthy _) fun b _ => ?_
    cases b with
    | true => exact stmt consequent env
    | false => exact runs_pure _
  | .branch test consequent (some alternate) =>
    refine T.bind (expr hh test env) fun _ _ => ?_
    refine T.bind (T.truthy _) fun b _ => ?_
    cases b with
    | true => exact stmt consequent env
    | false => exact stmt alternate env
  | .forLoop init test update body =>
    rw [Stmt.exec_forLoop]
    refine T.bind (T.openFrame env) fun env _ => ?_
    refine T.bind (start hh init env) fun _ _ => ?_
    rw [hh.rounds]
    refine loop_runs (holds hh test env) (stmt body env) ?_ _
    exact T.bind (opt hh update env) fun _ _ => runs_pure _
  | .whileLoop test body =>
    show T.Runs (Traced.loop host.rounds _ _ _ host.rounds)
      (Machine.loop plain.rounds _ (body.exec plain env) _ plain.rounds)
    rw [hh.rounds]
    exact loop_runs (holds hh (some test) env) (stmt body env) (runs_pure _) _
  | .block stmts =>
    refine T.bind (T.openFrame env) fun env _ => ?_
    exact T.bind (T.hoist env stmts) fun _ _ => stmtList stmts env
  | .ret arg => exact T.bind (opt hh arg env) fun _ _ => runs_pure _
  | .breakLoop | .continueLoop | .func _ | .empty => exact runs_pure _

theorem stmtList (stmts : List Stmt) (env : Env) :
    T.Runs (Stmt.traceList host env stmts) (Stmt.execList plain env stmts) := by
  match stmts with
  | [] => exact runs_pure _
  | s :: rest =>
    refine T.bind (stmt s env) fun flow _ => ?_
    cases flow with
    | next => exact stmtList rest env
    | ret | breakLoop | continueLoop => exact runs_pure _

end

theorem body (b : FuncBody) (env : Env) : T.Runs (b.trace host env) (b.run plain env) := by
  cases b with
  | expr e => exact expr hh e env
  | block stmts =>
    refine T.bind (T.hoist env stmts) fun _ _ => ?_
    refine T.bind (stmtList hh stmts env) fun flow _ => ?_
    cases flow with
    | next | ret => exact runs_pure _
    | breakLoop | continueLoop => exact T.fail trivial

theorem apply (f : Func) (env : Env) (args : List Value) :
    T.Runs (Traced.apply host f env args) (Machine.apply plain f env args) := by
  rw [Machine.apply_eq]
  exact T.bind (T.newFrame _) fun r _ => body hh f.body (r :: env)

end Trees

variable (T)

theorem callWithin (receiver : Value) (rounds limit left : Nat) :
    T.Hosts ⟨receiver, rounds, Traced.callWithin receiver rounds limit left⟩
      ⟨receiver, rounds, Machine.callWithin receiver rounds limit left⟩ := by
  induction left with
  | zero => exact ⟨rfl, rfl, fun _ _ _ => T.fail trivial⟩
  | succ left ih => exact ⟨rfl, rfl, fun f env args => apply ih f env args⟩

theorem run (receiver : Value) (p : Program) :
    T.Runs (Traced.run receiver p) (Machine.run receiver p) := by
  refine T.bind T.config fun config _ => ?_
  refine T.bind (T.newFrame _) fun r _ => ?_
  rw [T.rounds, T.depth]
  exact apply (T.callWithin receiver _ _ _) p.root [r] [.context]

theorem bar (ind : Indicator) (c : Candle) : T.Runs (Traced.bar ind c) (ind.bar c) := by
  refine T.bind (T.beginStep c) fun _ _ => ?_
  exact T.bind (T.run ind.receiver ind.program) fun _ _ => T.collapsed _

/-- **Whole runs** compare. -/
theorem rows (ind : Indicator) (cs : List Candle) : T.Runs (Traced.rows ind cs) (ind.rows cs) := by
  induction cs with
  | nil => exact runs_pure _
  | cons c cs ih =>
    refine T.bind (T.bar ind c) fun v _ => ?_
    exact T.bind ih fun _ _ => runs_pure _

end Tracking

end BarScript

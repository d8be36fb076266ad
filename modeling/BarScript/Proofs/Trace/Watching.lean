import BarScript.Proofs.Simulation.Upkeep
import BarScript.Proofs.Trace.Framing

/-!
# What traces of runs tell

Take an invariant of machines, and a property of events that holds of each event told
while the invariant does. Then it holds of all events of a run. The induction is on the
tree, as for plain runs; what the machine is like when a part of the tree begins is known
from how the parts before it end.
-/

namespace BarScript

open Machine Correspondence Traced List

namespace Upkeep

variable {U : Upkeep} {G : Event → Prop} {w : Heap} {α β γ : Type}

variable {R : Heap → α → α → Prop} {R' : Heap → β → β → Prop} {a : α} {x : Traced α} {y : Exec α}
  {f : α → Traced β}

/-- A property of events that holds of all that a machine in order tells by itself. -/
structure Watches (U : Upkeep) (G : Event → Prop) : Prop where
  history : ∀ i, G (.history i)
  touch : ∀ t, G (.touch t)
  name : ∀ {ρ x m}, U.inv m → U.sees m.heap ρ →
    G (.name x (Ending.outcome (Machine.readName ρ x m)))
  wrapped : ∀ {value offset key v m m'}, U.inv m → Machine.param value offset key m = .ok v m' →
    G (.wrapped (asked m value offset key) (m'.heap.current v))
  native : ∀ {host plain ρ callee es args m m'}, framing.Hosts host plain →
    U.shape.expr (.call callee es) → (Expr.traceArgs host ρ es m).2 = .ok args m' → U.inv m' →
    ∀ ns f, G (.native (.call callee es) ns f m' args)

/-- A traced run from here: what it tells has the property, and it ends with a result of
its kind in a grown world. -/
def Clean (U : Upkeep) (G : Event → Prop) (w : Heap) (R : Heap → α → α → Prop) (x : Traced α) :
    Prop :=
  ∀ m, U.base.rel w m m → (∀ e ∈ (x m).1, G e) ∧ U.base.Endings w R (x m).2 (x m).2

theorem clean_pure (h : R w a a) : Clean U G w R (pure a : Traced α) :=
  fun _ hm => ⟨fun _ he => absurd he not_mem_nil, .here hm h⟩

theorem clean_watch {events : Machine → Ending α → List Event} (hy : U.base.Steady w R y)
    (hG : ∀ m, U.base.rel w m m → ∀ e ∈ events m (y m), G e) : Clean U G w R (watch events y) :=
  fun m hm => ⟨hG m hm, hy m m hm⟩

theorem clean_quiet (hy : U.base.Steady w R y) : Clean U G w R (quiet y) :=
  clean_watch hy fun _ _ _ he => by cases he

theorem clean_reading (hG : Watches U G) {indices : Heap → List Nat} (hy : U.base.Steady w R y) :
    Clean U G w R (reading indices y) := by
  refine clean_watch hy fun m _ e he => ?_
  obtain ⟨i, -, rfl⟩ := mem_map.1 he
  exact hG.history i

theorem clean_writing (hG : Watches U G) {indices : Heap → List Nat} {refs : Machine → List Ref}
    (hy : U.base.Steady w R y) : Clean U G w R (writing indices refs y) := by
  refine clean_watch hy fun m _ e he => ?_
  rcases mem_append.1 he with he | he
  · obtain ⟨i, -, rfl⟩ := mem_map.1 he
    exact hG.history i
  · obtain ⟨r, -, rfl⟩ := mem_map.1 he
    exact hG.touch _

theorem Clean.stir (hG : Watches U G) {f : Unit → Traced β} (h : Clean U G w R' (f ())) :
    Clean U G w R' (Traced.stir >>= f) := by
  intro m hm
  refine ⟨fun e he => ?_, (h m hm).2⟩
  rcases mem_cons.1 (show e ∈ .touch .stirred :: (f () m).1 from he) with rfl | he
  · exact hG.touch _
  · exact (h m hm).1 e he

theorem Clean.overheard (h : Clean U G w R x) :
    Clean U G w (fun w a b => R w a.1 b.1) (Traced.overheard x) := by
  intro m hm
  have hx := h m hm
  unfold Traced.overheard
  revert hx
  generalize x m = t
  obtain ⟨events, ending⟩ := t
  rintro ⟨hev, hend⟩
  cases hend with
  | ok hle hrel hR => exact ⟨hev, .ok hle hrel hR⟩
  | error hrel => exact ⟨hev, .error hrel⟩

/-- **Sequences**: the second part begins where the first ends. -/
theorem Clean.bind_reached (h : Clean U G w R x)
    (hf : ∀ w', U.base.le w w' → ∀ a, R w' a a → ∀ m m', (x m).2 = .ok a m' →
      U.base.rel w' m' m' → (∀ e ∈ (f a m').1, G e) ∧ U.base.Endings w' R' (f a m').2 (f a m').2) :
    Clean U G w R' (x >>= f) := by
  intro m hm
  have hx := h m hm
  have hreached := fun w' hw a ha => hf w' hw a ha m
  rw [bind_apply]
  revert hx hreached
  generalize x m = t
  obtain ⟨events, ending⟩ := t
  rintro ⟨hev, hend⟩ hreached
  cases hend with
  | error hrel => exact ⟨hev, .error hrel⟩
  | ok hle hrel hR =>
    obtain ⟨hev', hend'⟩ := hreached _ hle _ hR _ rfl hrel
    refine ⟨fun e he => ?_, hend'.weaken hle fun _ _ _ _ h => h⟩
    exact (mem_append.1 he).elim (hev e) (hev' e)

theorem Clean.bind (h : Clean U G w R x)
    (hf : ∀ w', U.base.le w w' → ∀ a, R w' a a → Clean U G w' R' (f a)) :
    Clean U G w R' (x >>= f) :=
  h.bind_reached fun w' hw a ha _ m' _ hm' => hf w' hw a ha m' hm'

/-- What runs of trees need to know of their hosts and of where they run: calls are clean
in every world grown from here. -/
structure Runs (U : Upkeep) (G : Event → Prop) (w : Heap) (host : TracedHost) (plain : Host)
    (ρ : Env) : Prop where
  watches : Watches U G
  framed : framing.Hosts host plain
  receiver : U.base.val w host.receiver host.receiver
  clean : ∀ w', U.base.le w w' → ∀ (f : Func) (ρ : Env) (args : List Value), f.All U.shape →
    U.base.env w' ρ ρ → U.base.Vals w' args args → Clean U G w' U.base.val (host.call f ρ args)
  env : U.base.env w ρ ρ

theorem Runs.mono (h : Runs U G w host plain ρ) (hw : U.base.le w w') : Runs U G w' host plain ρ :=
  ⟨h.watches, h.framed, U.base.val_mono hw h.receiver,
    fun w'' hw' => h.clean w'' (U.base.trans hw hw'), U.base.env_mono hw h.env⟩

theorem clean_readName (hG : Watches U G) (hρ : U.base.env w ρ ρ) (x : String) :
    Clean U G w U.base.val (Traced.readName ρ x) := by
  refine clean_watch (U.operations.readName_agree hρ x) fun m hm e he => ?_
  obtain ⟨rfl, -, hm⟩ := hm
  cases mem_singleton.1 he
  exact hG.name hm hρ.2

theorem clean_param (hG : Watches U G) (hv : U.base.val w value value)
    (ho : U.base.val w offset offset) (key : String) :
    Clean U G w U.base.val (Traced.param value offset key) := by
  refine clean_watch (U.operations.param_agree hv ho key) fun m hm e he => ?_
  obtain ⟨rfl, -, hm⟩ := hm
  rcases mem_append.1 he with he | he
  · obtain ⟨i, -, rfl⟩ := mem_map.1 he
    exact hG.history i
  · cases hparam : Machine.param value offset key m with
    | error err m' =>
      rw [hparam] at he
      cases he
    | ok v m' =>
      rw [hparam] at he
      rcases mem_cons.1 he with rfl | he
      · exact hG.touch _
      · cases mem_singleton.1 he
        exact hG.wrapped hm hparam

theorem clean_contextCall (hG : Watches U G) (f : ContextFn) (hargs : U.base.Vals w args args) :
    Clean U G w U.base.val (Traced.contextCall f args) := by
  have harg := U.operations.arg_val hargs
  cases f with
  | init => exact clean_writing hG (U.operations.init_agree (harg 0) (harg 1) (harg 2))
  | param =>
    refine (clean_reading hG (U.operations.paramKey_agree hargs)).bind fun w' hw key _ => ?_
    cases key with
    | none => exact clean_quiet (agree_fail _)
    | some id => exact clean_param hG (U.base.val_mono hw (harg 0)) (U.base.val_mono hw (harg 1)) id
  | precision => exact clean_reading hG (U.operations.precision_agree (harg 0))

/-- What a call tells, if what it tells of a namespace function is so. -/
theorem clean_callValue (hh : Runs U G w host plain ρ)
    (site : Expr) (hv : U.base.val w callee callee) {args : List Argument}
    (hargs : U.base.Vals w (args.map Argument.value) (args.map Argument.value))
    (hm : U.base.rel w m m) (hnative : ∀ ns f, G (.native site ns f m args)) :
    (∀ e ∈ (Traced.callValue host site callee args m).1, G e) ∧ U.base.Endings w U.base.val
      (Traced.callValue host site callee args m).2
      (Traced.callValue host site callee args m).2 := by
  cases callee with
  | func f ρ =>
    obtain ⟨hρ, hf⟩ := U.operations.func_inv hv
    exact Clean.stir hh.watches (hh.clean w (U.base.refl w) f ρ _ hf hρ hargs) m hm
  | native ns name =>
    refine ⟨fun e he => ?_, U.operations.library_agree hargs ns name m m hm⟩
    rcases mem_cons.1 he with rfl | he
    · exact hnative ns name
    · obtain ⟨i, -, rfl⟩ := mem_map.1 he
      exact hh.watches.history i
  | contextFn f =>
    have hcall := clean_contextCall hh.watches f hargs
    cases f with
    | param =>
      unfold Traced.callValue
      cases site.wrapKey?.isSome with
      | true => exact hcall m hm
      | false => exact Clean.stir hh.watches hcall m hm
    | init | precision => exact Clean.stir hh.watches hcall m hm
  | _ => exact clean_quiet (U.operations.uncallable_agree hv) m hm

theorem clean_loop (htest : ∀ w', U.base.le w w' → Clean U G w' same test)
    (hbody : ∀ w', U.base.le w w' → Clean U G w' U.base.Flows body)
    (hstep : ∀ w', U.base.le w w' → Clean U G w' same step) (left : Nat) :
    Clean U G w U.base.Flows (Traced.loop limit test body step left) := by
  induction left generalizing w with
  | zero =>
    refine (htest w (U.base.refl w)).bind fun _ _ b _ => ?_
    cases b with
    | true => exact clean_quiet (agree_fail _)
    | false => exact clean_pure .next
  | succ left ih =>
    refine (htest w (U.base.refl w)).bind fun w₁ hw₁ b _ => ?_
    cases b with
    | false => exact clean_pure .next
    | true =>
      refine (hbody w₁ hw₁).bind fun w₂ hw₂ flow hflow => ?_
      have hw₂ := U.base.trans hw₁ hw₂
      have hon : Clean U G w₂ U.base.Flows (do step; Traced.loop limit test body step left) := by
        refine (hstep w₂ hw₂).bind fun w₃ hw₃ _ _ => ?_
        have hw₃ := U.base.trans hw₂ hw₃
        exact ih (fun w' h => htest w' (U.base.trans hw₃ h))
          (fun w' h => hbody w' (U.base.trans hw₃ h)) (fun w' h => hstep w' (U.base.trans hw₃ h))
      cases hflow with
      | next | continueLoop => exact hon
      | ret hv => exact clean_pure (.ret hv)
      | breakLoop => exact clean_pure .next

section Trees

variable {host : TracedHost} {plain : Host} {ρ : Env}

theorem clean_truthy (hG : Watches U G) (hv : U.base.val w v v) :
    Clean U G w same (Traced.truthy v) :=
  clean_reading hG (U.operations.truthy_agree hv)

theorem clean_binary (hG : Watches U G) (op : BinaryOp) (hl : U.base.val w l l)
    (hr : U.base.val w r r) : Clean U G w U.base.val (Traced.binary op l r) :=
  clean_reading hG (agree_heap? fun _ _ hmn => U.operations.binary?_rel hmn op hl hr)

mutual

/-- **Expressions** tell only what has the property. -/
theorem clean_expr (e : Expr) (he : e.All U.shape) {w : Heap}
    (hh : Runs U G w host plain ρ) : Clean U G w U.base.val (e.trace host ρ) := by
  match e with
  | .number _ | .str _ | .bool _ | .null | .undefined => exact clean_pure ⟨rfl, trivial⟩
  | .this => exact clean_pure hh.receiver
  | .func _ => exact clean_pure (U.operations.func hh.env he.2)
  | .ident id => exact clean_readName hh.watches hh.env id.name
  | .member base property =>
    exact (clean_expr base he.2 hh).bind fun _ _ _ hv =>
      clean_reading hh.watches (U.operations.readMember_agree hv property)
  | .index base sub =>
    obtain ⟨-, hb, hs⟩ := he
    refine (clean_expr base hb hh).bind fun w₁ hw₁ _ hv => ?_
    refine (clean_expr sub hs (hh.mono hw₁)).bind fun w₂ hw₂ _ hu => ?_
    exact clean_reading hh.watches (U.operations.readElement_agree (U.base.val_mono hw₂ hv) hu)
  | .call callee args =>
    obtain ⟨hcall, hc, ha⟩ := he
    refine (clean_expr callee hc hh).bind fun w₁ hw₁ v hv => ?_
    have hh₁ := hh.mono hw₁
    refine (clean_args args ha hh₁).bind_reached fun w₂ hw₂ vs hvs m m' hrun hm' => ?_
    exact clean_callValue (hh₁.mono hw₂) _ (U.base.val_mono hw₂ hv) hvs hm'
      (hh.watches.native hh.framed hcall hrun hm'.2.2)
  | .unary op arg =>
    exact (clean_expr arg he.2 hh).bind fun _ _ _ hv =>
      clean_reading hh.watches (agree_heap fun _ _ hmn => U.operations.unary_val hmn hv op)
  | .update op first target =>
    refine (clean_expr target he.2 hh).bind fun w₁ hw₁ v hv => ?_
    refine (clean_reading hh.watches (agree_heap_eq fun m n hmn => by rw [hmn.2.1])).bind
      fun w₂ hw₂ old _ => ?_
    have hh₂ := hh.mono (U.base.trans hw₁ hw₂)
    refine Clean.bind (clean_write target he.2 (fun _ h => U.updated (h ▸ he.1)) hh₂ ?_)
      fun _ _ _ _ => clean_pure ⟨rfl, trivial⟩
    exact ⟨rfl, trivial⟩
  | .binary op left right =>
    obtain ⟨-, hl, hr⟩ := he
    refine (clean_expr left hl hh).bind fun w₁ hw₁ _ hv => ?_
    refine (clean_expr right hr (hh.mono hw₁)).bind fun w₂ hw₂ _ hu => ?_
    exact clean_binary hh.watches op (U.base.val_mono hw₂ hv) hu
  | .logical op left right =>
    obtain ⟨-, hl, hr⟩ := he
    refine (clean_expr left hl hh).bind fun w₁ hw₁ l hv => ?_
    refine (clean_reading hh.watches (agree_heap_eq fun m n hmn => by rw [hmn.2.1])).bind
      fun w₂ hw₂ b _ => ?_
    cases b with
    | true => exact clean_pure (U.base.val_mono hw₂ hv)
    | false => exact clean_expr right hr (hh.mono (U.base.trans hw₁ hw₂))
  | .conditional test consequent alternate =>
    obtain ⟨-, ht, hc, ha⟩ := he
    refine (clean_expr test ht hh).bind fun w₁ hw₁ v hv => ?_
    refine (clean_truthy hh.watches hv).bind fun w₂ hw₂ b _ => ?_
    have hh₂ := hh.mono (U.base.trans hw₁ hw₂)
    cases b with
    | true => exact clean_expr consequent hc hh₂
    | false => exact clean_expr alternate ha hh₂
  | .assign op target value =>
    obtain ⟨hshape, ht, hv⟩ := he
    refine (clean_expr value hv hh).bind fun w₁ hw₁ rhs hrhs => ?_
    have hh₁ := hh.mono hw₁
    have hstore : ∀ w₂, U.base.le w₁ w₂ → ∀ v, U.base.val w₂ v v →
        Clean U G w₂ U.base.val (do target.traceWrite host ρ v; return v) := fun w₂ hw₂ v hv =>
      (clean_write target ht (fun _ h => U.assigned (h ▸ hshape)) (hh₁.mono hw₂) hv).bind
        fun _ hw₃ _ _ => clean_pure (U.base.val_mono hw₃ hv)
    cases op.binary? with
    | none => exact hstore w₁ (U.base.refl w₁) rhs hrhs
    | some bop =>
      refine (clean_expr target ht hh₁).bind fun w₂ hw₂ old hold => ?_
      refine (clean_binary hh.watches bop hold (U.base.val_mono hw₂ hrhs)).bind
        fun w₃ hw₃ v hv => ?_
      exact hstore w₃ (U.base.trans hw₂ hw₃) v hv
  | .array items =>
    exact (clean_current items he.2 hh).bind fun _ _ _ hl =>
      clean_quiet (U.operations.newArray_agree hl)
  | .object props =>
    exact (clean_fields props he.2 hh).bind fun _ _ _ hl => clean_quiet (newObject_agree hl)

theorem clean_write (e : Expr) (he : e.All U.shape)
    (hname : ∀ id, e = .ident id → U.shape.name id.name) {w : Heap}
    (hh : Runs U G w host plain ρ) {v : Value} (hv : U.base.val w v v) :
    Clean U G w same (e.traceWrite host ρ v) := by
  match e with
  | .member base property =>
    refine Clean.stir hh.watches ((clean_expr base he.2 hh).bind fun w₁ hw₁ _ hu => ?_)
    exact clean_writing hh.watches (writeMember_agree hu (U.base.val_mono hw₁ hv) property)
  | .index base sub =>
    obtain ⟨-, hb, hs⟩ := he
    refine Clean.stir hh.watches ((clean_expr base hb hh).bind fun w₁ hw₁ _ hu => ?_)
    refine (clean_expr sub hs (hh.mono hw₁)).bind fun w₂ hw₂ _ hi => ?_
    exact clean_writing hh.watches (writeElement_agree (U.base.val_mono hw₂ hu) hi
      (U.base.val_mono (U.base.trans hw₁ hw₂) hv))
  | .ident id =>
    exact Clean.stir hh.watches
      (clean_quiet (mirror.assignName_agree (define_agree (hname id rfl)) hh.env hv))
  | .number _ | .str _ | .bool _ | .null | .undefined | .this | .call _ _ | .unary _ _
  | .update _ _ _ | .binary _ _ _ | .logical _ _ _ | .conditional _ _ _ | .assign _ _ _
  | .array _ | .object _ | .func _ => exact clean_quiet (agree_fail _)

theorem clean_args (es : List Expr) (he : Expr.ListAll U.shape es) {w : Heap}
    (hh : Runs U G w host plain ρ) :
    Clean U G w (fun w l l' => U.base.Vals w (l.map Argument.value) (l'.map Argument.value))
      (Expr.traceArgs host ρ es) := by
  match es with
  | [] => exact clean_pure .nil
  | e :: rest =>
    refine (clean_expr e he.1 hh).bind fun w₁ hw₁ v hv => ?_
    refine (clean_quiet (U.operations.current_agree hv)).bind fun w₂ hw₂ _ _ => ?_
    have hh₂ := hh.mono (U.base.trans hw₁ hw₂)
    exact (clean_args rest he.2 hh₂).overheard.bind fun w₃ hw₃ _ hl =>
      clean_pure (.cons (U.base.val_mono (U.base.trans hw₂ hw₃) hv) hl)

theorem clean_current (es : List Expr) (he : Expr.ListAll U.shape es) {w : Heap}
    (hh : Runs U G w host plain ρ) : Clean U G w U.base.Items (Expr.traceCurrent host ρ es) := by
  match es with
  | [] => exact clean_pure .nil
  | e :: rest =>
    refine (clean_expr e he.1 hh).bind fun w₁ hw₁ v hv => ?_
    refine (clean_reading hh.watches (U.operations.current_agree hv)).bind fun w₂ hw₂ _ hu => ?_
    have hh₂ := hh.mono (U.base.trans hw₁ hw₂)
    exact (clean_current rest he.2 hh₂).bind fun _ hw₃ _ hl => clean_pure (.cons (hu.mono hw₃) hl)

theorem clean_fields (ps : List (String × Expr)) (he : Expr.PropAll U.shape ps) {w : Heap}
    (hh : Runs U G w host plain ρ) : Clean U G w U.base.Fields (Expr.traceFields host ρ ps) := by
  match ps with
  | [] => exact clean_pure .nil
  | (k, e) :: rest =>
    refine (clean_expr e he.1 hh).bind fun w₁ hw₁ v hv => ?_
    refine (clean_reading hh.watches (U.operations.current_agree hv)).bind fun w₂ hw₂ _ hu => ?_
    have hh₂ := hh.mono (U.base.trans hw₁ hw₂)
    exact (clean_fields rest he.2 hh₂).bind fun _ hw₃ _ hl =>
      clean_pure (.cons ⟨rfl, hu.mono hw₃⟩ hl)

end

theorem clean_opt (e? : Option Expr) (he : Expr.OptAll U.shape e?)
    (hh : Runs U G w host plain ρ) : Clean U G w U.base.val (Expr.traceOpt host ρ e?) := by
  cases e? with
  | none => exact clean_pure ⟨rfl, trivial⟩
  | some e => exact clean_expr e he hh

theorem clean_declare (ds : List Declarator) (hd : Declarator.ListAll U.shape ds)
    (hh : Runs U G w host plain ρ) : Clean U G w same (Declarator.trace host ρ ds) := by
  induction ds generalizing w with
  | nil => exact clean_pure rfl
  | cons d rest ih =>
    obtain ⟨target, init, pos⟩ := d
    obtain ⟨ht, hi, hrest⟩ := hd
    refine (clean_opt init hi hh).bind fun w₁ hw₁ v hv => ?_
    refine (clean_reading hh.watches (U.operations.bindPattern_agree (hh.mono hw₁).env ht hv)).bind
      fun w₂ hw₂ _ _ => ?_
    exact ih hrest (hh.mono (U.base.trans hw₁ hw₂))

theorem clean_holds (test : Option Expr) (ht : Expr.OptAll U.shape test)
    (hh : Runs U G w host plain ρ) : Clean U G w same (Expr.traceHolds host ρ test) := by
  cases test with
  | none => exact clean_pure rfl
  | some e => exact (clean_expr e ht hh).bind fun _ _ _ hv => clean_truthy hh.watches hv

theorem clean_start (init : Option ForInit) (hi : ForInit.OptAll U.shape init)
    (hh : Runs U G w host plain ρ) : Clean U G w same (ForInit.trace host ρ init) := by
  match init with
  | none => exact clean_pure rfl
  | some (.decl ⟨_, ds⟩) => exact clean_declare ds hi.2 hh
  | some (.expr e) => exact (clean_expr e hi hh).bind fun _ _ _ _ => clean_pure rfl

mutual

/-- **Statements** do so too. -/
theorem clean_stmt (s : Stmt) (hs : s.All U.shape) {ρ : Env} {w : Heap}
    (hh : Runs U G w host plain ρ) : Clean U G w U.base.Flows (s.trace host ρ) := by
  match s with
  | .decl ⟨_, ds⟩ => exact (clean_declare ds hs.2 hh).bind fun _ _ _ _ => clean_pure .next
  | .expr e => exact (clean_expr e hs hh).bind fun _ _ _ _ => clean_pure .next
  | .branch test consequent none =>
    obtain ⟨ht, hc, -⟩ := hs
    refine (clean_expr test ht hh).bind fun w₁ hw₁ v hv => ?_
    refine (clean_truthy hh.watches hv).bind fun w₂ hw₂ b _ => ?_
    cases b with
    | true => exact clean_stmt consequent hc (hh.mono (U.base.trans hw₁ hw₂))
    | false => exact clean_pure .next
  | .branch test consequent (some alternate) =>
    obtain ⟨ht, hc, ha⟩ := hs
    refine (clean_expr test ht hh).bind fun w₁ hw₁ v hv => ?_
    refine (clean_truthy hh.watches hv).bind fun w₂ hw₂ b _ => ?_
    have hh₂ := hh.mono (U.base.trans hw₁ hw₂)
    cases b with
    | true => exact clean_stmt consequent hc hh₂
    | false => exact clean_stmt alternate ha hh₂
  | .forLoop init test update body =>
    obtain ⟨hi, ht, hu, hb⟩ := hs
    refine (clean_quiet (U.operations.openFrame_agree hh.env)).bind fun w₁ hw₁ ρ₁ hρ₁ => ?_
    have hh₁ : Runs U G w₁ host plain ρ₁ := { hh.mono hw₁ with env := hρ₁ }
    refine (clean_start init hi hh₁).bind fun w₂ hw₂ _ _ => ?_
    have hh₂ := hh₁.mono hw₂
    refine clean_loop (fun w₃ hw₃ => ?_) (fun w₃ hw₃ => ?_) (fun w₃ hw₃ => ?_) _
    · exact clean_holds test ht (hh₂.mono hw₃)
    · exact clean_stmt body hb (hh₂.mono hw₃)
    · exact (clean_opt update hu (hh₂.mono hw₃)).bind fun _ _ _ _ => clean_pure rfl
  | .whileLoop test body =>
    obtain ⟨ht, hb⟩ := hs
    refine clean_loop (fun w₁ hw₁ => ?_) (fun w₁ hw₁ => ?_) (fun _ _ => clean_pure rfl) _
    · exact clean_holds (some test) ht (hh.mono hw₁)
    · exact clean_stmt body hb (hh.mono hw₁)
  | .block stmts =>
    refine (clean_quiet (U.operations.openFrame_agree hh.env)).bind fun w₁ hw₁ ρ₁ hρ₁ => ?_
    have hh₁ : Runs U G w₁ host plain ρ₁ := { hh.mono hw₁ with env := hρ₁ }
    refine (clean_quiet (U.operations.hoist_agree hs hρ₁)).bind fun w₂ hw₂ _ _ => ?_
    exact clean_stmts stmts hs (hh₁.mono hw₂)
  | .ret arg => exact (clean_opt arg hs hh).bind fun _ _ _ hv => clean_pure (.ret hv)
  | .breakLoop => exact clean_pure .breakLoop
  | .continueLoop => exact clean_pure .continueLoop
  | .func _ | .empty => exact clean_pure .next

theorem clean_stmts (stmts : List Stmt) (hs : Stmt.ListAll U.shape stmts) {ρ : Env} {w : Heap}
    (hh : Runs U G w host plain ρ) :
    Clean U G w U.base.Flows (Stmt.traceList host ρ stmts) := by
  match stmts with
  | [] => exact clean_pure .next
  | s :: rest =>
    refine (clean_stmt s hs.1 hh).bind fun w₁ hw₁ flow hflow => ?_
    cases hflow with
    | next => exact clean_stmts rest hs.2 (hh.mono hw₁)
    | ret hv => exact clean_pure (.ret hv)
    | breakLoop => exact clean_pure .breakLoop
    | continueLoop => exact clean_pure .continueLoop

end

theorem clean_body {body : FuncBody} (hbody : body.All U.shape)
    (hh : Runs U G w host plain ρ) : Clean U G w U.base.val (body.trace host ρ) := by
  cases body with
  | expr e => exact clean_expr e hbody hh
  | block stmts =>
    refine (clean_quiet (U.operations.hoist_agree hbody hh.env)).bind fun w₁ hw₁ _ _ => ?_
    refine (clean_stmts stmts hbody (hh.mono hw₁)).bind fun _ _ flow hflow => ?_
    cases hflow with
    | next => exact clean_pure ⟨rfl, trivial⟩
    | ret hv => exact clean_pure hv
    | breakLoop | continueLoop => exact clean_quiet (agree_fail _)

end Trees

theorem clean_apply (hh : Runs U G w host plain ρ)
    {f : Func} (hf : f.All U.shape) (hargs : U.base.Vals w args args) :
    Clean U G w U.base.val (Traced.apply host f ρ args) := by
  obtain ⟨name, params, body, style, pos⟩ := f
  obtain ⟨hparams, hbody⟩ := hf
  have hnames : ∀ p ∈ bindParams params args, U.shape.name p.1 := fun p hp => by
    obtain ⟨id, hid, hname⟩ := Operations.mem_bindParams hp
    exact hname ▸ hparams id hid
  refine (clean_quiet (newFrame_agree hh.env (U.operations.bindParams_entries params hargs)
    hnames)).bind fun w₁ hw₁ r hr => ?_
  exact clean_body hbody { hh.mono hw₁ with env := hr }

section Bars

variable (hG : Watches U G)

include hG

/-- Calls have the property however many may still be opened. -/
theorem runs_callWithin (hr : U.base.val w receiver receiver) (hρ : U.base.env w ρ ρ)
    (rounds limit left : Nat) :
    Runs U G w ⟨receiver, rounds, Traced.callWithin receiver rounds limit left⟩
      ⟨receiver, rounds, Machine.callWithin receiver rounds limit left⟩ ρ := by
  induction left generalizing w ρ with
  | zero =>
    exact ⟨hG, framing.callWithin receiver rounds limit 0, hr,
      fun _ _ _ _ _ _ _ _ => clean_quiet (agree_fail _), hρ⟩
  | succ left ih =>
    refine ⟨hG, framing.callWithin receiver rounds limit (left + 1), hr,
      fun w' hw f ρ args hf hρ hargs => ?_, hρ⟩
    exact clean_apply (ih (U.base.val_mono hw hr) hρ) hf hargs

omit hG

/-! ## Bars -/

/-- A script that keeps the invariant, from the frame of its own parameter on. -/
structure Script (U : Upkeep) (p : Program) : Prop where
  body : p.root.body.All U.shape
  frame : ∀ {m} (ρ : Env), U.inv m →
    U.le m.heap (m.heap.newFrame (.ofList (bindParams p.root.params [.context]))).2 ∧
      U.inv { m with heap := (m.heap.newFrame (.ofList (bindParams p.root.params [.context]))).2 } ∧
      U.sees (m.heap.newFrame (.ofList (bindParams p.root.params [.context]))).2
        (m.heap.frames.size :: ρ)

theorem outerFrame_agree : U.base.Steady w same (Exec.alloc fun h => h.newFrame .empty) := by
  rintro _ m ⟨rfl, rfl, hm⟩
  obtain ⟨hle, hinv, -⟩ := U.newFrame (l := []) hm (fun _ hp => by cases hp) fun _ hp => by cases hp
  exact .ok hle ⟨rfl, rfl, hinv⟩ rfl

theorem rootFrame_agree {p : Program} (hp : Script U p) (ρ : Env) :
    U.base.Steady w (fun w r r' => U.base.env w (r :: ρ) (r' :: ρ))
      (Exec.alloc fun h => h.newFrame (.ofList (bindParams p.root.params [.context]))) := by
  rintro _ m ⟨rfl, rfl, hm⟩
  obtain ⟨hle, hinv, hsees⟩ := hp.frame ρ hm
  exact .ok hle ⟨rfl, rfl, hinv⟩ ⟨rfl, hsees⟩

theorem setData_agree (name : String) (x : Float) :
    U.base.Steady w same (setData name x) := by
  have hx : ∀ w, U.base.Held w (.number x) (.number x) := fun _ => ⟨⟨rfl, trivial⟩, id⟩
  refine (agree_context_eq fun m n hmn => by rw [hmn.2.1]).bind_same fun w₁ _ r? => ?_
  cases r? with
  | some r => exact setCurrent_agree (o := 0) ⟨rfl, trivial⟩ (hx w₁)
  | none =>
    refine (newSeries_agree (hx w₁)).bind fun w₂ _ r r' hr => ?_
    cases hr.1
    exact modifyContext_agree fun _ => rfl

theorem beginStep_agree (candle : Candle) :
    U.base.Steady w same (beginStep candle) := by
  refine (agree_context_eq fun m n hmn => by rw [hmn.2.1]).bind_same fun w₁ _ c => ?_
  have hrest : ∀ w', U.base.Steady w' same (countAndSet candle) :=
    fun w' => (modifyContext_agree (f := fun c => { c with steps := c.steps + 1 })
      fun _ => rfl).bind fun w₂ _ _ _ _ =>
      U.operations.forM_agree (candleFields candle) fun p _ _ _ => setData_agree p.1 p.2
  split
  · have hadvance : U.base.Steady w₁ same (Exec.modifyHeap fun h => h.advanceAll c.named) := by
      refine modifyHeap_agree fun m hw hm => ?_
      subst hw
      exact List.foldlRecOn (motive := fun h => U.le m.heap h ∧ U.inv { m with heap := h }) c.named
        (fun h r => h.modifyHistory r History.advance) ⟨U.refl _, hm⟩ fun h hk r _ =>
          ⟨U.trans hk.1 (U.le_of_frames rfl),
            U.modifyHistory hk.2 fun _ _ hv =>
              .inr (History.mem_advance hv)⟩
    exact hadvance.bind fun w₂ _ _ _ _ => hrest w₂
  · exact hrest w₁

section Indicators

variable {ind : Indicator} (hp : Script U ind.program)
  (hreceiver : ∀ w, U.base.val w ind.receiver ind.receiver)

include hG hp hreceiver

theorem clean_run : Clean U G w U.base.val (Traced.run ind.receiver ind.program) := by
  refine (clean_quiet (agree_context_eq fun m n hmn => by rw [hmn.2.1])).bind
    fun w₁ _ config _ => ?_
  refine (clean_quiet outerFrame_agree).bind fun w₂ _ r _ => ?_
  refine (clean_quiet (rootFrame_agree hp [r])).bind fun w₃ _ r' hρ => ?_
  exact clean_body hp.body (runs_callWithin hG (hreceiver w₃) hρ _ _ _)

theorem clean_bar (c : Candle) : Clean U G w same (Traced.bar ind c) := by
  refine (clean_watch (beginStep_agree c) fun m _ e he => ?_).bind fun w₁ _ _ _ => ?_
  · cases mem_singleton.1 he
    exact hG.touch _
  · exact (clean_run hG hp hreceiver).bind fun _ _ _ _ =>
      clean_reading hG (agree_heap?_eq fun m n hmn => by rw [hmn.2.1])

/-- **Runs of any length** have the property. -/
theorem clean_rows (cs : List Candle) : Clean U G w same (Traced.rows ind cs) := by
  induction cs generalizing w with
  | nil => exact clean_pure rfl
  | cons c cs ih =>
    refine (clean_bar hG hp hreceiver c).bind fun w₁ _ s _ => ?_
    exact ih.bind fun _ _ _ _ => clean_pure rfl

end Indicators

end Bars

end Upkeep

end BarScript

import BarScript.Proofs.Arguments.Machines

/-!
# From the evaluation of an argument to the call

A namespace function begins when all of its arguments are evaluated. What an argument
shows may change until then: by a wrap under the key of the history that it shows, or by
a write of that history. If neither is told of while the later arguments are evaluated,
the argument shows what it showed. And if no script function is entered and nothing is
assigned there, then the only wraps are those that the later arguments say, so an
argument whose key they do not say is left alone.
-/

namespace BarScript

open Machine Traced List

/-! ## Keys that expressions say -/

mutual

/-- The keys that evaluating an expression may wrap values under by itself, without
entering a function. -/
def Expr.wrapKeys : Expr → List String
  | .member base _ => base.wrapKeys
  | .index base sub => base.wrapKeys ++ sub.wrapKeys
  | .call callee args =>
    (Expr.call callee args).wrapKey?.toList ++ (callee.wrapKeys ++ Expr.listWrapKeys args)
  | .unary _ arg => arg.wrapKeys
  | .update _ _ target => target.wrapKeys
  | .binary _ left right => left.wrapKeys ++ right.wrapKeys
  | .logical _ left right => left.wrapKeys ++ right.wrapKeys
  | .conditional test consequent alternate =>
    test.wrapKeys ++ (consequent.wrapKeys ++ alternate.wrapKeys)
  | .assign _ target value => target.wrapKeys ++ value.wrapKeys
  | .array items => Expr.listWrapKeys items
  | .object props => Expr.propWrapKeys props
  | .number _ | .str _ | .bool _ | .null | .undefined | .ident _ | .this | .func _ => []

def Expr.listWrapKeys : List Expr → List String
  | [] => []
  | e :: rest => e.wrapKeys ++ Expr.listWrapKeys rest

def Expr.propWrapKeys : List (String × Expr) → List String
  | [] => []
  | (_, e) :: rest => e.wrapKeys ++ Expr.propWrapKeys rest

end

/-- No later argument says the key of an argument. -/
def Expr.Fresh : List Expr → Prop
  | [] => True
  | e :: rest => (∀ key, e.wrapKey? = some key → key ∉ Expr.listWrapKeys rest) ∧ Expr.Fresh rest

namespace Arguments

variable {α β : Type} {m m' : Machine} {keys : List String}

variable {x : Traced α} {f : α → Traced β}

/-- Traced work that wraps values under some keys only, or tells of something else. -/
def Says (keys : List String) (x : Traced α) : Prop :=
  ∀ m, .stirred ∉ touches (x m).1 → ∀ t ∈ touches (x m).1, ∃ key ∈ keys, t = .wrapped key

theorem says_of_touches (h : ∀ m, touches (x m).1 = []) : Says keys x :=
  fun m _ t ht => by
    rw [h m] at ht
    cases ht

theorem says_pure (a : α) : Says keys (pure a : Traced α) :=
  says_of_touches fun _ => rfl

theorem says_quiet (x : Exec α) : Says keys (quiet x) :=
  says_of_touches fun _ => rfl

theorem says_reading (indices : Heap → List Nat) (x : Exec α) : Says keys (reading indices x) :=
  says_of_touches fun m => touches_history (indices m.heap)

theorem says_stir (f : Unit → Traced α) : Says keys (stir >>= f) :=
  fun _ hm => absurd mem_cons_self hm

theorem Says.overheard (h : Says keys x) : Says keys (overheard x) := fun m => by
  rw [overheard_events]
  exact h m

theorem Says.bind_reached (hx : Says keys x)
    (hf : ∀ m a m', (x m).2 = .ok a m' → .stirred ∉ touches (f a m').1 →
      ∀ t ∈ touches (f a m').1, ∃ key ∈ keys, t = .wrapped key) : Says keys (x >>= f) := by
  intro m hm
  have hx := hx m
  have hf := hf m
  rw [bind_apply] at hm ⊢
  revert hm hx hf
  generalize x m = t
  obtain ⟨events, ending⟩ := t
  intro hm hx hf
  cases ending with
  | error e m₁ => exact hx hm
  | ok a m₁ =>
    simp only [touches_append, mem_append, not_or] at hm ⊢
    rintro t (ht | ht)
    · exact hx hm.1 t ht
    · exact hf a m₁ rfl hm.2 t ht

theorem Says.bind (hx : Says keys x) (hf : ∀ a, Says keys (f a)) : Says keys (x >>= f) :=
  hx.bind_reached fun _ a m' _ => hf a m'

section Trees

variable {host : TracedHost} {ρ : Env}

variable {e site : Expr} {args : List Argument} {key : String}

theorem traceArgs_cons (h : (Expr.traceArgs host ρ (e :: rest) m).2 = .ok args m') :
    ∃ v m₁ args', (e.trace host ρ m).2 = .ok v m₁ ∧
      (Expr.traceArgs host ρ rest m₁).2 = .ok args' m' ∧
      args =
        ⟨v, m₁.heap.current v, e.wrapKey?, touches (Expr.traceArgs host ρ rest m₁).1⟩ :: args' := by
  obtain ⟨v, m₁, hv, h⟩ := Traced.bind_eq_ok h
  obtain ⟨shown, _, hshown, h⟩ := Traced.bind_eq_ok h
  cases hshown
  obtain ⟨⟨args', later⟩, _, hargs, h⟩ := Traced.bind_eq_ok h
  cases h
  obtain ⟨hrun, hlater⟩ := overheard_eq_ok hargs
  exact ⟨v, m₁, args', hv, hrun, by rw [show later = _ from hlater]⟩

theorem touches_param (value offset : Value) (key : String) (m : Machine) :
    ∀ t ∈ touches (Traced.param value offset key m).1, t = .wrapped key := by
  intro t ht
  have ht : t ∈ touches ((Library.argReads [value, offset] 1).map .history ++
    match Machine.param value offset key m with
    | .ok v m' => [.touch (.wrapped key), .wrapped (asked m value offset key) (m'.heap.current v)]
    | .error _ _ => []) := ht
  rw [touches_append, touches_history] at ht
  cases hparam : Machine.param value offset key m with
  | ok v m' =>
    rw [hparam] at ht
    exact mem_singleton.1 ht
  | error e m' =>
    rw [hparam] at ht
    cases ht

/-- The key that a wrap says is the one it wraps under. -/
theorem touches_wrap (hsite : site.wrapKey? = some key) (callee : Value)
    (h : (Expr.traceArgs host ρ [e, offset, .str key] m).2 = .ok args m')
    (hm : .stirred ∉ touches (Traced.callValue host site callee args m').1) :
    ∀ t ∈ touches (Traced.callValue host site callee args m').1, t = .wrapped key := by
  obtain ⟨v, m₁, args₁, -, h₁, rfl⟩ := traceArgs_cons h
  obtain ⟨o, m₂, args₂, -, h₂, rfl⟩ := traceArgs_cons h₁
  obtain ⟨k, m₃, args₃, hkey, h₃, rfl⟩ := traceArgs_cons h₂
  cases hkey
  cases h₃
  cases callee with
  | func f ρ' => exact absurd mem_cons_self hm
  | native ns name =>
    intro t ht
    have ht : t ∈ touches ((Library.reads ns name m'.heap _).map .history) := ht
    rw [touches_history] at ht
    cases ht
  | contextFn f =>
    cases f with
    | param =>
      unfold Traced.callValue
      rw [hsite]
      exact touches_param v o key m'
    | init | precision => exact absurd mem_cons_self hm
  | _ => exact fun t ht => nomatch ht

/-- A call that is no wrap wraps nothing by itself. -/
theorem touches_call (hsite : site.wrapKey? = none) (callee : Value) (args : List Argument)
    (hm : .stirred ∉ touches (Traced.callValue host site callee args m).1) :
    touches (Traced.callValue host site callee args m).1 = [] := by
  cases callee with
  | func f ρ' => exact absurd mem_cons_self hm
  | native ns name => exact touches_history _
  | contextFn f =>
    unfold Traced.callValue at hm
    rw [hsite] at hm
    cases f <;> exact absurd mem_cons_self hm
  | _ => rfl

theorem Expr.wrapKey?_eq_some {callee : Expr} {args : List Expr}
    (h : (Expr.call callee args).wrapKey? = some key) :
    ∃ base e offset, callee = .member base "param" ∧ args = [e, offset, .str key] := by
  unfold Expr.wrapKey? at h
  split at h
  · rename_i heq
    cases heq
    cases h
    exact ⟨_, _, _, rfl, rfl⟩
  · cases h

theorem says_write (e : Expr) (v : Value) : Says keys (e.traceWrite host ρ v) := by
  cases e with
  | ident | member | index => exact says_stir _
  | _ => exact says_quiet _

mutual

/-- **Expressions** wrap values under the keys they say, or enter or assign something. -/
theorem says_expr (e : Expr) (hkeys : ∀ key ∈ e.wrapKeys, key ∈ keys) :
    Says keys (e.trace host ρ) := by
  match e with
  | .number _ | .str _ | .bool _ | .null | .undefined | .this | .func _ => exact says_pure _
  | .ident id => exact says_of_touches fun _ => rfl
  | .member base property => exact (says_expr base hkeys).bind fun _ => says_reading _ _
  | .index base sub =>
    have hkeys := forall_mem_append.1 hkeys
    exact (says_expr base hkeys.1).bind fun _ => (says_expr sub hkeys.2).bind fun _ =>
      says_reading _ _
  | .call callee args =>
    obtain ⟨hown, hkeys⟩ := forall_mem_append.1 hkeys
    have hkeys := forall_mem_append.1 hkeys
    refine (says_expr callee hkeys.1).bind fun f => ?_
    refine (says_args args hkeys.2).bind_reached fun m vs m' hrun hm t ht => ?_
    cases hwrap : (Expr.call callee args).wrapKey? with
    | none =>
      rw [touches_call hwrap f vs hm] at ht
      cases ht
    | some key =>
      obtain ⟨base, e, offset, -, rfl⟩ := Expr.wrapKey?_eq_some hwrap
      exact ⟨key, hown key (by rw [hwrap]; exact mem_singleton.2 rfl),
        touches_wrap hwrap f hrun hm t ht⟩
  | .unary op arg => exact (says_expr arg hkeys).bind fun _ => says_reading _ _
  | .update op first target =>
    exact (says_expr target hkeys).bind fun _ => (says_reading _ _).bind fun _ =>
      (says_write target _).bind fun _ => says_pure _
  | .binary op left right =>
    have hkeys := forall_mem_append.1 hkeys
    exact (says_expr left hkeys.1).bind fun _ => (says_expr right hkeys.2).bind fun _ =>
      says_reading _ _
  | .logical op left right =>
    have hkeys := forall_mem_append.1 hkeys
    refine (says_expr left hkeys.1).bind fun _ => (says_reading _ _).bind fun b => ?_
    cases b with
    | true => exact says_pure _
    | false => exact says_expr right hkeys.2
  | .conditional test consequent alternate =>
    obtain ⟨htest, hkeys⟩ := forall_mem_append.1 hkeys
    have hkeys := forall_mem_append.1 hkeys
    refine (says_expr test htest).bind fun _ => (says_reading _ _).bind fun b => ?_
    cases b with
    | true => exact says_expr consequent hkeys.1
    | false => exact says_expr alternate hkeys.2
  | .assign op target value =>
    have hkeys := forall_mem_append.1 hkeys
    refine (says_expr value hkeys.2).bind fun rhs => ?_
    have hstore : ∀ v, Says keys (do target.traceWrite host ρ v; return v) := fun v =>
      (says_write target v).bind fun _ => says_pure _
    cases op.binary? with
    | none => exact hstore rhs
    | some bop =>
      exact (says_expr target hkeys.1).bind fun _ => (says_reading _ _).bind hstore
  | .array items => exact (says_current items hkeys).bind fun _ => says_quiet _
  | .object props => exact (says_fields props hkeys).bind fun _ => says_quiet _

theorem says_args (es : List Expr) (hkeys : ∀ key ∈ Expr.listWrapKeys es, key ∈ keys) :
    Says keys (Expr.traceArgs host ρ es) := by
  match es with
  | [] => exact says_pure _
  | e :: rest =>
    have hkeys := forall_mem_append.1 hkeys
    exact (says_expr e hkeys.1).bind fun _ => (says_quiet _).bind fun _ =>
      (says_args rest hkeys.2).overheard.bind fun _ => says_pure _

theorem says_current (es : List Expr) (hkeys : ∀ key ∈ Expr.listWrapKeys es, key ∈ keys) :
    Says keys (Expr.traceCurrent host ρ es) := by
  match es with
  | [] => exact says_pure _
  | e :: rest =>
    have hkeys := forall_mem_append.1 hkeys
    exact (says_expr e hkeys.1).bind fun _ => (says_reading _ _).bind fun _ =>
      (says_current rest hkeys.2).bind fun _ => says_pure _

theorem says_fields (ps : List (String × Expr)) (hkeys : ∀ key ∈ Expr.propWrapKeys ps, key ∈ keys) :
    Says keys (Expr.traceFields host ρ ps) := by
  match ps with
  | [] => exact says_pure _
  | (_, e) :: rest =>
    have hkeys := forall_mem_append.1 hkeys
    exact (says_expr e hkeys.1).bind fun _ => (says_reading _ _).bind fun _ =>
      (says_fields rest hkeys.2).bind fun _ => says_pure _

end

end Trees

end Arguments

/-! ## What arguments show -/

namespace Argument

variable (m : Machine) (a : Argument)

/-- Since the argument was evaluated nothing has touched the history that it shows. -/
def Undisturbed : Prop :=
  ∀ r ∈ a.value.refs, ∀ t ∈ a.later, t.reaches m r = false

/-- The argument shows a history of another argument. -/
def Borrowed : Prop :=
  ∃ r ∈ a.value.refs, a.key.bind m.context.params.get? ≠ some r ∧ r ∈ m.context.params.values

instance : Decidable (a.Undisturbed m) :=
  inferInstanceAs (Decidable (∀ r ∈ a.value.refs, ∀ t ∈ a.later, t.reaches m r = false))

instance : Decidable (a.Borrowed m) :=
  inferInstanceAs (Decidable (∃ r ∈ a.value.refs, _ ∧ _))

/-- What is known of an argument when the function begins. -/
structure Faithful : Prop where
  /-- It shows what it showed, unless something has touched its history. -/
  shows : a.Undisturbed m → m.heap.current a.value = a.shown
  /-- That takes a script function or an assignment, if it is wrapped and its history is
  its own or none of another argument. -/
  calm : a.key.isSome → ¬ a.Borrowed m → .stirred ∉ a.later → a.Undisturbed m

end Argument

namespace Arguments

variable {m m' : Machine}

theorem current_eq_of_history {v : Value} (h : ∀ r ∈ v.refs, m'.heap.history r = m.heap.history r) :
    m'.heap.current v = m.heap.current v := by
  cases v with
  | series r o =>
    show m'.heap.seriesGet r o 0 = m.heap.seriesGet r o 0
    unfold Heap.seriesGet
    rw [h r mem_cons_self]
  | _ => rfl

/-- **From evaluation to call**: the arguments of a call that says no key twice. -/
theorem faithful_args (hh : framing.Hosts host plain) (hfresh : Expr.Fresh es) (hm' : KeysApart m')
    (h : (Expr.traceArgs host ρ es m).2 = .ok args m') : ∀ a ∈ args, a.Faithful m' := by
  induction es generalizing m args with
  | nil =>
    cases h
    exact fun a ha => nomatch ha
  | cons e rest ih =>
    obtain ⟨v, m₁, args', -, hrest, rfl⟩ := traceArgs_cons h
    refine forall_mem_cons.2 ⟨⟨fun hundisturbed => ?_, fun hkey hown hcalm => ?_⟩,
      ih hfresh.2 hrest⟩
    · obtain ⟨-, hframed⟩ := Tracking.arguments hh rest ρ m₁ args' m' hrest
      exact current_eq_of_history fun r hr => hframed.history r (hundisturbed r hr)
    · intro r hr t ht
      obtain ⟨key', hkey', rfl⟩ := says_args rest (fun _ h => h) m₁ hcalm t ht
      refine beq_false_of_ne fun hreach => ?_
      obtain ⟨key, hkey⟩ := Option.isSome_iff_exists.1 hkey
      -- the history has a key, so it is the argument's own, and has no other
      have howned : (e.wrapKey?).bind m'.context.params.get? = some r := by
        by_contra hne
        exact hown ⟨r, hr, hne, Dict.mem_values_of_get? hreach⟩
      rw [show e.wrapKey? = some key from hkey] at howned
      cases hm'.injective hreach howned
      exact hfresh.1 key' hkey hkey'

theorem get?_setCurrent (s : History Value) (v : Value) (i : Nat) :
    (s.setCurrent v).get? i = if i = 0 then some v else s.get? i := by
  obtain ⟨values, capacity⟩ := s
  cases values <;> cases i <;> rfl

/-- What a view shows of a history whose current value was set. -/
theorem seriesGet_setCurrent {h : Heap} (hr : r < h.histories.size) (v : Value) (shift : Nat) :
    (h.modifyHistory r fun s => s.setCurrent v).seriesGet r shift 0 =
      if shift = 0 then v else h.seriesGet r 0 shift := by
  unfold Heap.seriesGet
  rw [Heap.history_modifyHistory, if_pos ⟨rfl, hr⟩, get?_setCurrent, Nat.zero_add, Nat.add_zero]
  split <;> rfl

/-- **Wrapping**: what is handed over shows what it was to show. -/
theorem given_eq_asked (hm : KeysApart m) (h : Machine.param value offset key m = .ok v m') :
    m'.heap.current v = asked m value offset key := by
  have hplain : (do
      let r ← paramHistory key
      Exec.modifyHeap fun h => h.modifyHistory r fun s => s.setCurrent value
      return Value.series r (m.heap.bars offset) : Exec Value) m = .ok v m' →
      m'.heap.current v = if m.heap.bars offset = 0 then value
        else ((m.context.params.get? key).map fun r =>
          m.heap.seriesGet r 0 (m.heap.bars offset)).getD .na := fun h => by
    obtain ⟨r, m₁, hr, h⟩ := Exec.bind_eq_ok h
    obtain ⟨_, m₂, hset, h⟩ := Exec.bind_eq_ok h
    cases h
    cases hset
    cases hkey : m.context.params.get? key with
    | some q =>
      rw [paramHistory_of_get? hkey] at hr
      cases hr
      exact seriesGet_setCurrent (hm.inRange hkey) value _
    | none =>
      rw [paramHistory_of_none hkey] at hr
      cases hr
      refine (seriesGet_setCurrent ?_ value _).trans ?_
      · exact Nat.lt_of_lt_of_eq (Nat.lt_succ_self _) (Array.size_push _).symm
      · rw [Heap.seriesGet, Heap.history_newHistory, if_pos rfl]
        rfl
  obtain ⟨shift, _, hshift, h⟩ := Exec.bind_eq_ok h
  cases hshift
  cases value with
  | series r o =>
    cases h
    show m.heap.seriesGet r _ 0 = m.heap.seriesGet r 0 _
    unfold Heap.seriesGet
    rw [Nat.zero_add, Nat.add_zero]
  | func f ρ =>
    cases h
    rfl
  | native ns name =>
    cases h
    rfl
  | _ => exact hplain h

end Arguments

end BarScript

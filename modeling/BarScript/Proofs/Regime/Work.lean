import BarScript.Proofs.Readings

/-!
# What work keeps, and how it may fail

Two kinds of facts about a single operation on a machine are wanted again and again: that
a condition on the machine is kept, whether the operation comes to its end or stops on the
way, and that it stops only for reasons that are known. A `Regime` is a condition on
machines with the failures that are allowed under it. It says what is asked of values, of
those that histories, arrays and objects hold, and that the changes which an operation can
make keep the condition; that each operation keeps it is then proved once for all regimes.
Changes of histories and of the context are asked for only in a `Regime.Wide`.

Three failures belong to single operations and are asked for where these are treated: a
name that nothing has, a stateful call without a key, and a history assigned into itself.
-/

namespace BarScript

open Machine Exec

/-- A failure that any operation may end in. -/
def RuntimeError.IsCommon : RuntimeError → Prop
  | .unknownIdentifier _ => False
  | .invalidArgument _ .noCallId => False
  | _ => True

/-- A value with a text or copy that does not come to an end. -/
def Heap.Unending (h : Heap) (v : Value) : Prop :=
  h.display? v = none ∨ h.debug? v = none ∨ h.collapsed? v = none ∨
    ∃ scale, rounded? h scale h.depthBound (h.current v) = none

/-- A condition on machines, with what may go wrong under it. -/
structure Regime where
  inv : Machine → Prop
  /-- What is asked of values. -/
  fits : Value → Prop
  /-- What is asked of values in histories, arrays and objects. -/
  stores : Value → Prop
  /-- How work may stop, and on which machine. -/
  fails : Halt → Machine → Prop
  fits_of_not_func : ∀ {v : Value}, (∀ f ρ, v ≠ .func f ρ) → fits v
  fits_of_stores : ∀ {v}, stores v → fits v
  stores_of_fits : ∀ {v : Value}, ¬ v.IsSeries → fits v → stores v
  history : ∀ {m}, inv m → ∀ r, ∀ v ∈ (m.heap.history r).values, stores v
  array : ∀ {m}, inv m → ∀ r, ∀ v ∈ (m.heap.array r).toList, stores v
  object : ∀ {m}, inv m → ∀ r, ∀ v ∈ (m.heap.object r).values, stores v
  newArray : ∀ {m} {l : List Value}, inv m → (∀ v ∈ l, stores v) →
    inv { m with heap := (m.heap.newArray l.toArray).2 }
  newObject : ∀ {m} {l : List (String × Value)}, inv m → (∀ p ∈ l, stores p.2) →
    inv { m with heap := (m.heap.newObject (.ofList l)).2 }
  modifyArray : ∀ {m r} {f : Array Value → Array Value}, inv m →
    (∀ a, (∀ v ∈ a.toList, stores v) → ∀ v ∈ (f a).toList, stores v) →
    inv { m with heap := m.heap.modifyArray r f }
  insertField : ∀ {m r key v}, inv m → stores v →
    inv { m with heap := m.heap.modifyObject r fun d => d.insert key v }
  kernels : ∀ {m} ks, inv m → inv { m with context := { m.context with kernels := ks } }
  common : ∀ {m e}, inv m → RuntimeError.IsCommon e → fails (.error e) m
  unending : ∀ {m v}, inv m → m.heap.Unending v → fails .endless m

/-- A regime that histories and the context may change under. -/
structure Regime.Wide extends Regime where
  newHistory : ∀ {m} {s : History Value}, inv m → (∀ v ∈ s.values, stores v) →
    inv { m with heap := (m.heap.newHistory s).2 }
  modifyHistory : ∀ {m r} {f : History Value → History Value}, inv m →
    (∀ s, (∀ v ∈ s.values, stores v) → ∀ v ∈ (f s).values, stores v) →
    inv { m with heap := m.heap.modifyHistory r f }
  /-- The settings stay. -/
  context : ∀ {m} {c : Context}, inv m → c.config = m.context.config → inv { m with context := c }
  kernels _ hm := context hm rfl

namespace Regime

/-- The regime of all machines, in which only the failures matter. -/
def Wide.ofFailures (fails : Halt → Prop) (common : ∀ e, RuntimeError.IsCommon e → fails (.error e))
    (endless : fails .endless) : Regime.Wide where
  inv _ := True
  fits _ := True
  stores _ := True
  fails h _ := fails h
  fits_of_not_func _ := trivial
  fits_of_stores _ := trivial
  stores_of_fits _ _ := trivial
  history _ _ _ _ := trivial
  array _ _ _ _ := trivial
  object _ _ _ _ := trivial
  newHistory _ _ := trivial
  newArray _ _ := trivial
  newObject _ _ := trivial
  modifyHistory _ _ := trivial
  modifyArray _ _ := trivial
  insertField _ _ := trivial
  context _ _ := trivial
  common _ he := common _ he
  unending _ _ := endless

variable (R : Regime) {α β : Type}

/-- Work that keeps the condition, gives results of a kind, and fails only as it may. -/
def Keeps (Q : α → Prop) (x : Exec α) : Prop :=
  ∀ m, R.inv m → match x m with
    | .ok a m' => R.inv m' ∧ Q a
    | .error h m' => R.inv m' ∧ R.fails h m'

/-- Work of whose results nothing is asked. -/
abbrev KeepsAny (x : Exec α) : Prop :=
  R.Keeps (fun _ => True) x

variable {R} {P Q : α → Prop} {x : Exec α}

/-! ## Sequences -/

theorem keeps_pure (h : Q a) : R.Keeps Q (pure a) := fun _ hm => ⟨hm, h⟩

theorem keeps_throw (h : ∀ m, R.inv m → R.fails e m) :
    R.Keeps Q (throw e : Exec α) := fun m hm => ⟨hm, h m hm⟩

theorem keeps_fail {e : RuntimeError} (h : e.IsCommon) : R.Keeps Q (fail e : Exec α) :=
  keeps_throw fun _ hm => R.common hm h

theorem Keeps.bind (hx : R.Keeps Q x) (hf : ∀ a, Q a → R.Keeps T (f a)) : R.Keeps T (x >>= f) := by
  intro m hm
  have h := hx m hm
  cases hend : x m with
  | ok a m' =>
    rw [hend] at h
    rw [bind_ok hend]
    exact hf a h.2 m' h.1
  | error e m' =>
    rw [hend] at h
    rw [bind_error hend]
    exact h

theorem Keeps.weaken (hx : R.Keeps P x) (h : ∀ a, P a → Q a) : R.Keeps Q x := by
  intro m hm
  have hend := hx m hm
  revert hend
  cases x m with
  | ok a m' => exact fun hend => ⟨hend.1, h a hend.2⟩
  | error e m' => exact id

theorem Keeps.any (hx : R.Keeps P x) : R.KeepsAny x :=
  hx.weaken fun _ _ => trivial

theorem Keeps.map {T : β → Prop} {f : α → β} (hx : R.Keeps Q x) (hf : ∀ a, Q a → T (f a)) :
    R.Keeps T (do return f (← x)) :=
  hx.bind fun a ha => keeps_pure (hf a ha)

theorem keeps_forM {γ : Type} {l : List γ} {f : γ → Exec Unit}
    (hf : ∀ a ∈ l, R.KeepsAny (f a)) : R.KeepsAny (l.forM f) := by
  induction l with
  | nil => exact keeps_pure trivial
  | cons a l ih =>
    refine (hf a List.mem_cons_self).bind fun _ _ => ?_
    exact ih fun b hb => hf b (List.mem_cons_of_mem a hb)

/-! ## Readings and changes -/

theorem keeps_heap (h : ∀ m, R.inv m → Q (f m.heap)) : R.Keeps Q (heap f) :=
  fun m hm => ⟨hm, h m hm⟩

theorem keeps_context (h : ∀ m, R.inv m → Q (f m.context)) : R.Keeps Q (context f) :=
  fun m hm => ⟨hm, h m hm⟩

theorem keeps_heap_any (f : Heap → α) : R.KeepsAny (heap f) :=
  keeps_heap fun _ _ => trivial

theorem keeps_context_any (f : Context → α) : R.KeepsAny (context f) :=
  keeps_context fun _ _ => trivial

/-- A reading that stops only at a value whose text or copy does not end. -/
theorem keeps_heap? (hsome : ∀ m a, R.inv m → f m.heap = some a → Q a)
    (hnone : ∀ m, R.inv m → f m.heap = none → ∃ v, m.heap.Unending v) : R.Keeps Q (heap? f) := by
  intro m hm
  rw [heap?_eq]
  cases hf : f m.heap with
  | some a => exact ⟨hm, hsome m a hm hf⟩
  | none =>
    obtain ⟨v, hv⟩ := hnone m hm hf
    exact ⟨hm, R.unending hm hv⟩

theorem keeps_modifyHeap {f : Heap → Heap}
    (h : ∀ m, R.inv m → R.inv { m with heap := f m.heap }) : R.KeepsAny (modifyHeap f) :=
  fun m hm => ⟨h m hm, trivial⟩

theorem keeps_alloc (h : ∀ m, R.inv m → R.inv { m with heap := (f m.heap).2 } ∧ Q (f m.heap).1) :
    R.Keeps Q (alloc f) := fun m hm => h m hm

/-! ## Values -/

variable {m : Machine} {v w : Value}

theorem stores_of_isFree (hs : ¬ v.IsSeries) (hf : ∀ f ρ, v ≠ .func f ρ) : R.stores v :=
  R.stores_of_fits hs (R.fits_of_not_func hf)

theorem stores_na : R.stores .na :=
  stores_of_isFree id fun _ _ h => by cases h

theorem stores_number (x : Float) : R.stores (.number x) :=
  stores_of_isFree id fun _ _ h => by cases h

theorem fits_na : R.fits .na :=
  R.fits_of_stores stores_na

theorem fits_number (x : Float) : R.fits (.number x) :=
  R.fits_of_stores (stores_number x)

theorem fits_bool (b : Bool) : R.fits (.bool b) :=
  R.fits_of_not_func fun _ _ h => by cases h

theorem fits_series (r : Ref) (offset : Nat) : R.fits (.series r offset) :=
  R.fits_of_not_func fun _ _ h => by cases h

theorem stores_seriesGet (hm : R.inv m) (r : Ref) (offset i : Nat) :
    R.stores (m.heap.seriesGet r offset i) := by
  unfold Heap.seriesGet History.get?
  cases hv : (m.heap.history r).values[offset + i]? with
  | none => exact stores_na
  | some v => exact R.history hm r v (List.mem_of_getElem? hv)

theorem stores_current (hm : R.inv m) (hv : R.fits v) : R.stores (m.heap.current v) := by
  cases v with
  | series r offset => exact stores_seriesGet hm r offset 0
  | _ => exact R.stores_of_fits id hv

theorem stores_element (hm : R.inv m) (r : Ref) (i : Nat) :
    R.stores ((m.heap.array r).getD i .na) := by
  rw [Array.getD_eq_getD_getElem?]
  cases hv : (m.heap.array r)[i]? with
  | none => exact stores_na
  | some v => exact R.array hm r v (Array.mem_toList_iff.2 (Array.mem_of_getElem? hv))

theorem stores_field (hm : R.inv m) (r : Ref) (key : String) :
    R.stores (((m.heap.object r).get? key).getD .na) := by
  cases hv : (m.heap.object r).get? key with
  | none => exact stores_na
  | some v => exact R.object hm r v (Dict.mem_values_of_get? hv)

theorem keeps_current (hv : R.fits v) : R.Keeps R.stores (heap fun h => h.current v) :=
  keeps_heap fun _ hm => stores_current hm hv

theorem keeps_display (v : Value) : R.KeepsAny (heap? fun h => h.display? (h.current v)) :=
  keeps_heap? (fun _ _ _ _ => trivial) fun _ _ hnone => ⟨_, .inl hnone⟩

theorem unending_of_binary? {h : Heap} (hnone : h.binary? op l r = none) : ∃ v, h.Unending v := by
  have hjoin : ∀ a b, h.join? a b = none → ∃ v, h.Unending v := by
    intro a b hab
    unfold Heap.join? at hab
    cases ha : h.display? a with
    | none => exact ⟨a, .inl ha⟩
    | some s =>
      cases hb : h.display? b with
      | none => exact ⟨b, .inl hb⟩
      | some t =>
        rw [ha, hb] at hab
        cases hab
  cases op with
  | add =>
    have hadd : h.add? (h.current l) (h.current r) = none := hnone
    unfold Heap.add? at hadd
    split at hadd
    · exact hjoin _ _ hadd
    · exact hjoin _ _ hadd
    · cases hadd
  | _ => cases hnone

theorem not_func_of_binary? {h : Heap} (hsome : h.binary? op l r = some v) :
    ∀ f ρ, v ≠ .func f ρ := by
  have hjoin : ∀ a b, h.join? a b = some v → ∀ f ρ, v ≠ .func f ρ := by
    intro a b hab
    obtain ⟨s, -, hab⟩ := Option.bind_eq_some_iff.1 hab
    obtain ⟨t, -, hab⟩ := Option.bind_eq_some_iff.1 hab
    cases hab
    exact fun _ _ h => by cases h
  cases op with
  | add =>
    have hadd : h.add? (h.current l) (h.current r) = some v := hsome
    unfold Heap.add? at hadd
    split at hadd
    · exact hjoin _ _ hadd
    · exact hjoin _ _ hadd
    · cases hadd
      exact fun _ _ h => by cases h
  | _ =>
    cases hsome
    exact fun _ _ h => by cases h

theorem keeps_binary (op : BinaryOp) (l r : Value) :
    R.Keeps R.fits (heap? fun h => h.binary? op l r) :=
  keeps_heap? (fun _ _ _ hsome => R.fits_of_not_func (not_func_of_binary? hsome))
    fun _ _ hnone => unending_of_binary? hnone

theorem fits_unary (h : Heap) (op : UnaryOp) (v : Value) : R.fits (h.unary op v) := by
  cases op with
  | not => exact fits_bool _
  | neg => exact fits_number _
  | plus => exact fits_number _

theorem keeps_collapsed (v : Value) : R.KeepsAny (heap? fun h => h.collapsed? v) :=
  keeps_heap? (fun _ _ _ _ => trivial) fun _ _ hnone => ⟨v, .inr (.inr (.inl hnone))⟩

theorem keeps_uncallable (v : Value) :
    R.Keeps Q (do fail (.notCallable (← heap? fun h => h.debug? v)) : Exec α) :=
  (keeps_heap? (fun _ _ _ _ => trivial)
    fun _ _ hnone => ⟨v, .inr (.inl hnone)⟩).bind fun _ _ => keeps_fail trivial

/-! ## The context -/

section Wide

variable {R : Wide}

theorem keeps_modifyContext {f : Context → Context} (h : ∀ c, (f c).config = c.config) :
    R.KeepsAny (modifyContext f) :=
  fun m hm => ⟨R.context hm (h m.context), trivial⟩

theorem newSeries_keeps (hv : R.stores v) : R.KeepsAny (newSeries v) := by
  refine (keeps_context_any _).bind fun capacity _ => ?_
  refine keeps_alloc fun m hm => ⟨R.newHistory hm fun u hu => ?_, trivial⟩
  rw [History.mem_withCurrent hu]
  exact hv

theorem setCurrent_keeps (r : Ref) (hv : R.stores v) :
    R.KeepsAny (modifyHeap fun h => h.modifyHistory r fun s => s.setCurrent v) := by
  refine keeps_modifyHeap fun m hm => R.modifyHistory hm fun s hs u hu => ?_
  rcases History.mem_setCurrent hu with rfl | hu
  · exact hv
  · exact hs u hu

theorem setData_keeps (name : String) (x : Float) : R.KeepsAny (setData name x) := by
  refine (keeps_context_any _).bind fun r _ => ?_
  cases r with
  | some r => exact setCurrent_keeps r (stores_number x)
  | none =>
    refine (newSeries_keeps (stores_number x)).bind fun _ _ => ?_
    exact keeps_modifyContext fun _ => rfl

theorem inv_advance (l : List Ref) (hm : R.inv m) :
    R.inv { m with heap := l.foldl (fun h r => h.modifyHistory r History.advance) m.heap } := by
  induction l generalizing m with
  | nil => exact hm
  | cons r l ih =>
    exact ih (R.modifyHistory hm fun s hs u hu => hs u (History.mem_advance hu))

theorem beginStep_keeps (candle : Candle) : R.KeepsAny (beginStep candle) := by
  refine (keeps_context_any _).bind fun c _ => ?_
  have hset : R.KeepsAny (do
      modifyContext fun c => { c with steps := c.steps + 1 }
      (candleFields candle).forM fun p => setData p.1 p.2) :=
    Keeps.bind (keeps_modifyContext fun _ => rfl) fun _ _ =>
      keeps_forM fun p _ => setData_keeps p.1 p.2
  by_cases hc : 0 < c.steps
  · rw [if_pos hc]
    exact (keeps_modifyHeap fun m hm => inv_advance c.named hm).bind fun _ _ => hset
  · rw [if_neg hc]
    exact hset

theorem config_setSlot (c : Context) (b : Bucket) (name : String) (r : Ref) :
    (c.setSlot b name r).config = c.config := by
  cases b <;> rfl

theorem storeSlot_keeps (b : Bucket) (name : String) (hv : R.fits v) :
    R.KeepsAny (storeSlot b name v) := by
  unfold storeSlot
  split
  · refine (keeps_pure (Q := fun _ => True) trivial).bind fun _ _ => ?_
    exact keeps_modifyContext fun c => config_setSlot c b name _
  · refine (keeps_current hv).bind fun w hw => ?_
    refine (newSeries_keeps hw).bind fun _ _ => ?_
    exact keeps_modifyContext fun c => config_setSlot c b name _

theorem init_keeps (slot offset : Value) (hv : R.fits value) :
    R.Keeps R.fits (init slot value offset) := by
  cases value with
  | series r o =>
    refine (keeps_heap fun _ hm => stores_seriesGet hm r o _).bind fun v hv => ?_
    cases slot with
    | series r o => exact (setCurrent_keeps _ hv).bind fun _ _ => keeps_pure (fits_series _ _)
    | _ => exact (newSeries_keeps hv).map fun r _ => fits_series r 0
  | _ =>
    have hv := R.stores_of_fits id hv
    cases slot with
    | series r o => exact (setCurrent_keeps _ hv).bind fun _ _ => keeps_pure (fits_series _ _)
    | _ => exact (newSeries_keeps hv).map fun r _ => fits_series r 0

theorem paramHistory_keeps (key : String) : R.KeepsAny (paramHistory key) := by
  refine (keeps_context_any _).bind fun r _ => ?_
  cases r with
  | some r => exact keeps_pure trivial
  | none =>
    refine (keeps_context_any _).bind fun capacity _ => ?_
    refine (keeps_alloc (Q := fun _ => True) fun m hm =>
      ⟨R.newHistory hm fun _ hu => (List.not_mem_nil hu).elim, trivial⟩).bind fun r _ => ?_
    exact Keeps.bind (keeps_modifyContext fun _ => rfl) fun _ _ => keeps_pure trivial

theorem param_keeps (offset : Value) (key : String) (hv : R.fits value) :
    R.Keeps R.fits (param value offset key) := by
  refine (keeps_heap_any _).bind fun shift _ => ?_
  split
  · exact keeps_pure (fits_series _ _)
  · exact keeps_pure hv
  · exact keeps_pure hv
  · next hns _ _ =>
    have hstore : R.stores value := by
      refine R.stores_of_fits (fun hs => ?_) hv
      cases value with
      | series r o => exact hns r o rfl
      | _ => exact hs
    refine (paramHistory_keeps key).bind fun r _ => ?_
    exact (setCurrent_keeps r hstore).bind fun _ _ => keeps_pure (fits_series _ _)

end Wide

/-! ## Rounding -/

/-- What rounding makes holds what may be stored. -/
def Plain (R : Regime) : Rounded → Prop
  | .value v => R.stores v
  | .array items => ∀ t ∈ items, Plain R t

theorem plain_of_rounded? (hm : R.inv m) (scale : Float) :
    ∀ {v : Value}, R.stores v → rounded? m.heap scale n v = some t → R.Plain t := by
  induction n generalizing t with
  | zero => exact fun _ h => by cases h
  | succ n ih =>
    intro v hv ht
    cases v with
    | array r =>
      obtain ⟨ts, hts, rfl⟩ := Option.map_eq_some_iff.1 ht
      rw [Plain]
      intro t ht
      obtain ⟨u, hu, hut⟩ := exists_of_mem_mapM hts ht
      exact ih (stores_current hm (R.fits_of_stores (R.array hm r u hu))) hut
    | number x =>
      cases ht
      rw [Plain]
      exact stores_number _
    | _ =>
      cases ht
      rw [Plain]
      exact hv

mutual

theorem make_keeps (t : Rounded) (ht : R.Plain t) : R.Keeps R.stores t.make := by
  match t with
  | .value v =>
    rw [Plain] at ht
    exact keeps_pure ht
  | .array items =>
    rw [Plain] at ht
    refine (makeList_keeps items ht).bind fun vs hvs => keeps_alloc fun m hm => ?_
    exact ⟨R.newArray hm hvs, stores_of_isFree id fun _ _ h => by cases h⟩

theorem makeList_keeps (ts : List Rounded) (hts : ∀ t ∈ ts, R.Plain t) :
    R.Keeps (fun vs => ∀ v ∈ vs, R.stores v) (Rounded.makeList ts) := by
  match ts with
  | [] => exact keeps_pure fun _ hv => by cases hv
  | t :: rest =>
    refine (make_keeps t (hts t List.mem_cons_self)).bind fun v hv => ?_
    refine (makeList_keeps rest fun u hu => hts u (List.mem_cons_of_mem t hu)).map fun vs hvs => ?_
    exact List.forall_mem_cons.2 ⟨hv, hvs⟩

end

theorem precision_keeps (hv : R.fits v) : R.Keeps R.fits (precision v) := by
  refine (keeps_context_any _).bind fun scale _ => ?_
  refine (keeps_heap? (Q := R.Plain) (fun _ t hm ht => ?_) fun _ _ hnone => ?_).bind fun t ht => ?_
  · exact plain_of_rounded? hm scale (stores_current hm hv) ht
  · exact ⟨v, .inr (.inr (.inr ⟨scale, hnone⟩))⟩
  · exact (make_keeps t ht).weaken fun _ => R.fits_of_stores

/-! ## Fields and elements -/

theorem fits_view (d : Dict Ref) (name : String) : R.fits (Context.view d name) := by
  unfold Context.view
  cases d.get? name with
  | some r => exact fits_series r 0
  | none => exact fits_na

theorem fits_contextMember (c : Context) (property : String) :
    R.fits (contextMember c property) := by
  refine R.fits_of_not_func fun f ρ h => ?_
  unfold contextMember at h
  split at h
  all_goals try contradiction
  split at h <;> contradiction

theorem fits_member (hm : R.inv m) (base : Value) (property : String) :
    R.fits (m.member base property) := by
  have hlength : ∀ n : Nat, R.fits (if property == "length" then .number n.toFloat else .na) := by
    intro n
    split
    · exact fits_number _
    · exact fits_na
  unfold Machine.member
  split
  · exact fits_contextMember _ _
  · exact fits_view _ _
  · exact R.fits_of_not_func fun _ _ h => by cases h
  · exact fits_view _ _
  · exact R.fits_of_stores (stores_field hm _ _)
  · exact hlength _
  · exact hlength _
  · exact fits_na

theorem readMember_keeps (base : Value) (property : String) :
    R.Keeps R.fits (readMember base property) :=
  fun _ hm => ⟨hm, fits_member hm base property⟩

theorem readElement_keeps (base index : Value) : R.Keeps R.fits (readElement base index) := by
  cases base with
  | series r offset =>
    unfold readElement
    refine keeps_heap fun m hm => ?_
    cases m.heap.position? index with
    | some i => exact R.fits_of_stores (stores_seriesGet hm r offset i)
    | none => exact fits_na
  | array r =>
    unfold readElement
    refine keeps_heap fun m hm => ?_
    cases m.heap.position? index with
    | some i => exact R.fits_of_stores (stores_element hm r i)
    | none => exact fits_na
  | object r =>
    refine (keeps_display index).bind fun key _ => keeps_heap fun m hm => ?_
    exact R.fits_of_stores (stores_field hm r key)
  | str s =>
    unfold readElement
    refine keeps_heap fun m _ => ?_
    cases (m.heap.position? index).bind fun i => s.toList[i]? with
    | some c => exact R.fits_of_not_func fun _ _ h => by cases h
    | none => exact fits_na
  | _ => exact keeps_pure fits_na

theorem insertField_keeps (r : Ref) (key : String) (hv : R.fits v) :
    R.KeepsAny (modifyHeap fun h =>
      let w := h.current v
      h.modifyObject r fun d => d.insert key w) :=
  keeps_modifyHeap fun _ hm => R.insertField hm (stores_current hm hv)

section Wide

variable {R : Wide}

theorem writeMember_keeps (base : Value) (property : String) (hv : R.fits v) :
    R.KeepsAny (writeMember base property v) := by
  cases base with
  | bucket b => exact storeSlot_keeps b property hv
  | object r => exact insertField_keeps r property hv
  | _ => exact keeps_fail trivial

/-- An element is assigned, unless a history would be assigned into itself. -/
theorem writeElement_keeps (base index : Value) (hv : R.fits v)
    (hshared : ∀ {m r o o'}, base = .series r o → v = .series r o' → R.inv m →
      R.fails .sharedWrite m) : R.KeepsAny (writeElement base index v) := by
  refine (keeps_heap_any _).bind fun x _ => ?_
  refine (keeps_heap_any _).bind fun position _ => ?_
  split
  · next r offset i =>
    have hset : R.KeepsAny (modifyHeap fun h =>
        let w := h.current v
        h.modifyHistory r fun s => setBar s (offset + i) w) := by
      refine keeps_modifyHeap fun m hm => R.modifyHistory hm fun s hs u hu => ?_
      rcases mem_setBar hu with rfl | hu
      · exact stores_current hm hv
      · exact hs u hu
    cases hshows : showsHistory r v with
    | true =>
      refine keeps_throw fun m hm => ?_
      cases v with
      | series q o' =>
        rw [eq_of_beq (show (q == r) = true from hshows)] at hshared
        exact hshared rfl rfl hm
      | _ => cases hshows
    | false => exact hset
  · next r i =>
    by_cases hi : maxLength ≤ i
    · rw [if_pos hi]
      exact fun m hm => ⟨hm, R.common hm trivial⟩
    · rw [if_neg hi]
      have hset : R.KeepsAny (modifyHeap fun h =>
          let w := h.current v
          h.modifyArray r fun a => setElement a i w) := by
        refine keeps_modifyHeap fun m hm => R.modifyArray hm fun a ha u hu => ?_
        rcases mem_setElement hu with rfl | rfl | hu
        · exact stores_current hm hv
        · exact stores_na
        · exact ha u hu
      exact hset
  · exact (keeps_display index).bind fun key _ => insertField_keeps _ key hv
  · exact keeps_fail trivial

end Wide

end Regime

end BarScript

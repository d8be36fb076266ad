import BarScript.Proofs.Regime.Library
import BarScript.Proofs.Trace.Erasure

/-!
# What changes histories

A history changes when a value is wrapped under the key that it belongs to, when the
script sets its bars, when it is begun, or when a bar begins. Nothing else does this:
no namespace function, and no reading. So if a trace tells of no touch of a history, the
history is as it was. The histories of arguments stay under their keys throughout.
-/

namespace BarScript

open Machine Traced List Regime Exec

variable {α β γ : Type} {m m' m'' : Machine}

/-- What becomes of histories in the course of some touches. -/
structure Framed (ts : List Touch) (m m' : Machine) : Prop where
  params : ∀ {key r}, m.context.params.get? key = some r → m'.context.params.get? key = some r
  history : ∀ r, (∀ t ∈ ts, t.reaches m' r = false) → m'.heap.history r = m.heap.history r

namespace Framed

variable {ts us : List Touch}

theorem refl (m : Machine) : Framed ts m m :=
  ⟨fun h => h, fun _ _ => rfl⟩

theorem mono (h : Framed ts m m') (hts : ∀ t ∈ ts, t ∈ us) : Framed us m m' :=
  ⟨h.params, fun r hr => h.history r fun t ht => hr t (hts t ht)⟩

/-- A touch that reaches a history still does later, since keys keep theirs. -/
theorem reaches (h : Framed ts m m') {t : Touch} (ht : t.reaches m' r = false) :
    t.reaches m r = false := by
  cases t with
  | wrapped key =>
    refine beq_false_of_ne fun hkey => ?_
    exact ne_of_beq_false ht (h.params hkey)
  | wrote | began => exact ht
  | stirred => rfl

theorem trans (h : Framed ts m m') (h' : Framed us m' m'') : Framed (ts ++ us) m m'' where
  params hr := h'.params (h.params hr)
  history r hr := by
    rw [h'.history r fun t ht => hr t (mem_append_right _ ht)]
    exact h.history r fun t ht => h'.reaches (hr t (mem_append_left _ ht))

end Framed

/-! ## Plain work -/

/-- Work that changes no history but those it is said to touch. -/
def Spares (ts : Machine → List Touch) (x : Exec α) : Prop :=
  ∀ m a m', x m = .ok a m' → Framed (ts m) m m'

abbrev SparesAll (x : Exec α) : Prop :=
  Spares (fun _ => []) x

section Work

theorem spares_pure (a : α) : SparesAll (pure a) := by
  intro m b m' h
  cases h
  exact .refl m

theorem spares_fail (e : RuntimeError) : SparesAll (fail e : Exec α) :=
  fun _ _ _ h => by cases h

theorem SparesAll.spares (hx : SparesAll x) (ts : Machine → List Touch) : Spares ts x :=
  fun m a m' h => (hx m a m' h).mono fun _ ht => by cases ht

theorem Spares.bind (hx : Spares (fun _ => ts) x)
    (hf : ∀ a, Spares (fun _ => ts) (f a)) : Spares (fun _ => ts) (x >>= f) := by
  intro m b m' h
  obtain ⟨a, m₁, hx', hf'⟩ := bind_eq_ok h
  exact ((hx m a m₁ hx').trans (hf a m₁ b m' hf')).mono fun t ht => (mem_append.1 ht).elim id id

theorem Spares.afterRead {ts : Machine → List Touch} {f : α → Exec β}
    (hx : ∀ m a m', x m = .ok a m' → m' = m) (hf : ∀ a, Spares ts (f a)) : Spares ts (x >>= f) := by
  intro m b m' h
  obtain ⟨a, m₁, hx', hf'⟩ := bind_eq_ok h
  cases hx m a m₁ hx'
  exact hf a m b m' hf'

theorem spares_heap (f : Heap → α) : SparesAll (Exec.heap f) := by
  intro m a m' h
  cases h
  exact .refl m

theorem spares_heap? (f : Heap → Option α) : SparesAll (heap? f) := by
  intro m a m' h
  obtain ⟨-, rfl⟩ := heap?_eq_ok h
  exact .refl m'

theorem spares_context (f : Context → α) : SparesAll (Exec.context f) := by
  intro m a m' h
  cases h
  exact .refl m

theorem spares_modifyHeap {f : Heap → Heap} (hf : ∀ h, (f h).histories = h.histories) :
    SparesAll (modifyHeap f) := by
  intro m a m' h
  cases h
  refine ⟨fun hr => hr, fun r _ => ?_⟩
  unfold Heap.history
  rw [hf]

/-- Work on the context that leaves the arguments alone. -/
theorem spares_modifyContext {f : Context → Context} (hf : ∀ c, (f c).params = c.params) :
    SparesAll (modifyContext f) := by
  intro m a m' h
  cases h
  refine ⟨fun hr => ?_, fun _ _ => rfl⟩
  rw [hf]
  exact hr

/-- The regime of machines with given histories, and given ones for arguments. -/
def untouched (histories : Array (History Value)) (params : Dict Ref) : Regime where
  inv m := m.heap.histories = histories ∧ m.context.params = params
  fits _ := True
  stores _ := True
  fails _ _ := True
  fits_of_not_func _ := trivial
  fits_of_stores _ := trivial
  stores_of_fits _ _ := trivial
  history _ _ _ _ := trivial
  array _ _ _ _ := trivial
  object _ _ _ _ := trivial
  newArray hm _ := hm
  newObject hm _ := hm
  modifyArray hm _ := hm
  insertField hm _ := hm
  kernels _ hm := hm
  common _ _ := trivial
  unending _ _ := trivial

/-- Work that keeps the histories as they are changes none. -/
theorem spares_of_keeps (hx : ∀ hs ps, (untouched hs ps).Keeps Q x) : SparesAll x := by
  intro m a m' h
  have hend := hx m.heap.histories m.context.params m ⟨rfl, rfl⟩
  rw [h] at hend
  obtain ⟨⟨hhistories, hparams⟩, -⟩ := hend
  refine ⟨fun hr => ?_, fun r _ => ?_⟩
  · rw [hparams]
    exact hr
  · unfold Heap.history
    rw [hhistories]

end Work

/-! ## Work of the evaluator -/

namespace Machine

theorem spares_forM (l : List β) {f : β → Exec PUnit}
    (hf : ∀ b, Spares (fun _ => ts) (f b)) : Spares (fun _ => ts) (l.forM f) := by
  induction l with
  | nil => exact (spares_pure _).spares _
  | cons b l ih => exact (hf b).bind fun _ => ih

theorem spares_newSeries (v : Value) :
    Spares (fun m => [.wrote m.heap.histories.size]) (newSeries v) := by
  intro m r m' h
  cases h
  refine ⟨fun hr => hr, fun q hq => ?_⟩
  have hne : q ≠ m.heap.histories.size :=
    fun h => ne_of_beq_false (hq _ mem_cons_self) h.symm
  exact (Heap.history_newHistory _ _ _).trans (if_neg hne)

theorem spares_modifyHistory (r : Ref) (f : Heap → History Value → History Value) :
    Spares (fun _ => [.wrote r]) (modifyHeap fun h => h.modifyHistory r (f h)) := by
  intro m a m' h
  cases h
  refine ⟨fun hr => hr, fun q hq => ?_⟩
  have hne : r ≠ q := ne_of_beq_false (hq _ mem_cons_self)
  exact (Heap.history_modifyHistory _ _ _ _).trans (if_neg fun h => hne h.1)

theorem spares_storeSlot (b : Bucket) (name : String) (v : Value) :
    Spares (fun m => [.wrote m.heap.histories.size]) (storeSlot b name v) := by
  rw [storeSlot_eq]
  have hslot : ∀ r, SparesAll (modifyContext fun c => c.setSlot b name r) :=
    fun r => spares_modifyContext fun c => by cases b <;> rfl
  have hnew : Spares (fun m => [.wrote m.heap.histories.size])
      (do newSeries (← Exec.heap fun h => h.current v)) :=
    fun m r m' h => spares_newSeries (m.heap.current v) m r m' h
  have hhistory : Spares (fun m => [.wrote m.heap.histories.size]) (slotHistory v) := by
    cases v with
    | series r o =>
      cases o with
      | zero => exact fun m q m' h => (spares_pure r m q m' h).mono fun _ ht => by cases ht
      | succ o => exact hnew
    | _ => exact hnew
  intro m a m' h
  obtain ⟨r, m₁, hr, h⟩ := bind_eq_ok h
  exact (hhistory m r m₁ hr).trans (hslot r m₁ a m' h)

theorem spares_writeMember (base : Value) (property : String) (v : Value) :
    Spares (fun m => [.wrote m.heap.histories.size]) (writeMember base property v) := by
  cases base with
  | bucket b => exact spares_storeSlot b property v
  | object r =>
    have hfield : SparesAll (modifyHeap fun h =>
        h.modifyObject r fun d => d.insert property (h.current v)) :=
      spares_modifyHeap
        fun _ => rfl
    exact fun m a m' h => (hfield m a m' h).mono fun _ ht => by cases ht
  | _ => exact fun _ _ _ h => by cases h

theorem spares_writeElement (base index v : Value) :
    Spares (fun _ => base.refs.map .wrote) (writeElement base index v) := by
  refine ((spares_heap _).spares _).bind fun x => ((spares_heap _).spares _).bind fun p => ?_
  cases base with
  | series r o =>
    cases p with
    | none => exact fun _ _ _ h => by cases h
    | some k =>
      show Spares _ (if _ then _ else _)
      split
      · exact fun _ _ _ h => by cases h
      · exact spares_modifyHistory r fun h s => setBar s (o + k) (h.current v)
  | array r =>
    cases p with
    | none => exact fun _ _ _ h => by cases h
    | some k =>
      show SparesAll (if _ then _ else _)
      split
      · exact fun _ _ _ h => by cases h
      · exact spares_modifyHeap
          fun _ => rfl
  | object r =>
    refine Spares.bind (spares_heap? _) fun key => ?_
    exact spares_modifyHeap
      fun _ => rfl
  | _ => exact fun _ _ _ h => by cases h

theorem spares_init (slot value offset : Value) :
    Spares (fun m => .wrote m.heap.histories.size :: slot.refs.map .wrote)
      (init slot value offset) := by
  rw [init_eq]
  refine Spares.afterRead (fun m a m' h => ?_) fun v => ?_
  · cases value <;> cases h <;> rfl
  · have hnew : Spares (fun m => .wrote m.heap.histories.size :: slot.refs.map .wrote)
        (do return Value.series (← newSeries v) 0) := fun m u m' h => by
      obtain ⟨r, m₁, hr, h⟩ := bind_eq_ok h
      cases h
      exact (spares_newSeries v m r m' hr).mono fun t ht => by
        cases mem_singleton.1 ht
        exact mem_cons_self
    cases slot with
    | series r o =>
      intro m u m' h
      obtain ⟨_, m₁, hset, h⟩ := bind_eq_ok h
      cases h
      exact (spares_modifyHistory r (fun _ s => s.setCurrent v) m _ m' hset).mono
        fun t ht => mem_cons_of_mem _ ht
    | _ => exact hnew

/-- The history of an argument is the one under its key. -/
theorem paramHistory_eq_ok (h : paramHistory key m = .ok r m') :
    m'.context.params.get? key = some r ∧ Framed [.wrapped key] m m' := by
  cases hr : m.context.params.get? key with
  | some q =>
    rw [paramHistory_of_get? hr] at h
    cases h
    exact ⟨hr, .refl m⟩
  | none =>
    rw [paramHistory_of_none hr] at h
    cases h
    have hkey := Dict.get?_insert_self m.context.params key m.heap.histories.size
    refine ⟨hkey, fun {k r} hk => ?_, fun q hq => ?_⟩
    · have hne : key ≠ k := by
        rintro rfl
        rw [hr] at hk
        cases hk
      exact (Dict.get?_insert_of_ne _ hne _).trans hk
    · have hne : q ≠ m.heap.histories.size := by
        rintro rfl
        exact ne_of_beq_false (hq _ mem_cons_self) hkey
      exact (Heap.history_newHistory _ _ _).trans (if_neg hne)

theorem spares_param (value offset : Value) (key : String) :
    Spares (fun _ => [.wrapped key]) (Machine.param value offset key) := by
  refine ((spares_heap _).spares _).bind fun shift => ?_
  have hwrap : Spares (fun _ => [.wrapped key]) (do
      let r ← paramHistory key
      modifyHeap fun h => h.modifyHistory r fun s => s.setCurrent value
      return Value.series r shift) := fun m u m' h => by
    obtain ⟨r, m₁, hr, h⟩ := bind_eq_ok h
    obtain ⟨_, m₂, hset, h⟩ := bind_eq_ok h
    cases h
    obtain ⟨hkey, hframed⟩ := paramHistory_eq_ok hr
    have hset := spares_modifyHistory r (fun _ s => s.setCurrent value) m₁ _ m' hset
    refine ⟨fun hr => hset.params (hframed.params hr), fun q hq => ?_⟩
    have hreach := hq _ mem_cons_self
    rw [hset.history q fun t ht => ?_, hframed.history q fun t ht => ?_]
    · cases mem_singleton.1 ht
      exact hset.reaches hreach
    · cases mem_singleton.1 ht
      refine beq_false_of_ne ?_
      rintro rfl
      exact ne_of_beq_false hreach (hset.params hkey)
  cases value with
  | series | func | native => exact (spares_pure _).spares _
  | _ => exact hwrap

theorem spares_began (f : Heap → Heap) : Spares (fun _ => [.began]) (modifyHeap f) := by
  intro m a m' h
  cases h
  exact ⟨fun hr => hr, fun r hr => by cases hr _ mem_cons_self⟩

theorem spares_setData (name : String) (x : Float) :
    Spares (fun _ => [.began]) (setData name x) := by
  refine ((spares_context _).spares _).bind fun r? => ?_
  cases r? with
  | some r => exact spares_began _
  | none =>
    have hnew : Spares (fun _ => [.began]) (newSeries (.number x)) := fun m r m' h =>
      ⟨(spares_newSeries _ m r m' h).params, fun r hr => by cases hr _ mem_cons_self⟩
    refine hnew.bind fun r => SparesAll.spares ?_ _
    exact spares_modifyContext fun _ => rfl

theorem spares_beginStep (candle : Candle) : Spares (fun _ => [.began]) (beginStep candle) := by
  refine ((spares_context _).spares _).bind fun c => ?_
  have hrest : Spares (fun _ => [.began]) (do
      modifyContext fun c => { c with steps := c.steps + 1 }
      (candleFields candle).forM fun p => setData p.1 p.2) :=
    ((spares_modifyContext (f := fun c => { c with steps := c.steps + 1 })
      fun _ => rfl).spares _).bind fun _ => spares_forM _ fun p => spares_setData p.1 p.2
  split
  · exact (spares_began _).bind fun _ => hrest
  · exact hrest

end Machine

/-! ## Traced work -/

namespace Traced

@[simp] theorem touches_append (l l' : List Event) : touches (l ++ l') = touches l ++ touches l' :=
  filterMap_append

theorem touches_history (l : List Nat) : touches (l.map .history) = [] := by
  induction l with
  | nil => rfl
  | cons _ _ ih => exact ih

theorem touches_wrote (l : List Ref) :
    touches (l.map fun r => .touch (.wrote r)) = l.map .wrote := by
  induction l with
  | nil => rfl
  | cons r _ ih => exact congrArg (Touch.wrote r :: ·) ih

/-- Traced work that tells of every history it changes. -/
def Frames (P : α → Prop) (x : Traced α) : Prop :=
  ∀ m a m', (x m).2 = .ok a m' → P a ∧ Framed (touches (x m).1) m m'

theorem frames_watch (hx : Spares ts x)
    (hts : ∀ m a m', x m = .ok a m' → ∀ t ∈ ts m, t ∈ touches (events m (x m))) :
    Frames (fun _ => True) (watch events x) :=
  fun m a m' h => ⟨trivial, (hx m a m' h).mono (hts m a m' h)⟩

theorem frames_all (hx : SparesAll x) : Frames (fun _ => True) (watch events x) :=
  frames_watch hx fun _ _ _ _ _ ht => by cases ht

theorem frames_kept {events : Machine → Ending α → List Event} {Q : α → Prop}
    (hx : ∀ hs ps, (untouched hs ps).Keeps Q x) : Frames (fun _ => True) (watch events x) :=
  frames_all (spares_of_keeps hx)

theorem frames_writing (hx : Spares (fun m => (refs m).map .wrote) x) :
    Frames (fun _ => True) (writing indices refs x) :=
  frames_watch hx fun m _ _ _ t ht => by
    rw [touches_append, touches_history, touches_wrote]
    exact ht

theorem Frames.bind (hx : Frames P x) (hf : ∀ a, P a → Frames Q (f a)) : Frames Q (x >>= f) := by
  intro m b m' h
  have hx := hx m
  rw [bind_apply] at h ⊢
  revert h hx
  generalize x m = t
  obtain ⟨events, ending⟩ := t
  intro h hx
  cases ending with
  | error e m₁ => cases h
  | ok a m₁ =>
    obtain ⟨hP, hframed⟩ := hx a m₁ rfl
    obtain ⟨hQ, hframed'⟩ := hf a hP m₁ b m' h
    refine ⟨hQ, ?_⟩
    rw [touches_append]
    exact hframed.trans hframed'

theorem frames_contextCall (f : ContextFn) (args : List Value) :
    Frames (fun _ => True) (contextCall f args) := by
  cases f with
  | init => exact frames_writing (spares_init _ _ _)
  | param =>
    refine (frames_all (spares_heap _)).bind fun key _ => ?_
    cases key with
    | none => exact frames_all (spares_fail _)
    | some id =>
      refine frames_watch (spares_param _ _ id) fun m v m' h t ht => ?_
      rw [touches_append, touches_history, h]
      exact ht
  | precision => exact frames_kept fun _ _ => precision_keeps trivial

/-- **Traced runs tell of every history they change.** -/
def framing : Tracking where
  Tracks _ P x _ := Frames P x
  Held _ := True
  settings := id
  result _ hP := fun m a m' h => by
    cases h
    exact ⟨hP, .refl m⟩
  bind hx hf := hx.bind hf
  fail _ := fun _ _ _ h => by cases h
  uncallable v := fun m _ _ h => absurd h (uncallable_ne_ok m)
  stir h := fun m a m' hrun => by
    obtain ⟨hP, hframed⟩ := h m a m' hrun
    exact ⟨hP, hframed.mono fun _ ht => mem_cons_of_mem _ ht⟩
  overheard h := fun m r m' hr => by
    rw [overheard_events]
    exact h m r.1 m' (overheard_eq_ok hr).1
  peek v hf := fun m => hf (m.heap.current v) m
  current v := frames_all (spares_heap _)
  truthy v := frames_all (spares_heap _)
  number v := frames_all (spares_heap _)
  unary op v := frames_all (spares_heap _)
  settles op v := frames_all (spares_heap _)
  binary op l r := frames_all (spares_heap? _)
  readName env x := frames_kept fun _ _ =>
    readName_keeps env x (fun _ _ _ _ => trivial) fun _ _ _ _ => trivial
  readMember base property := frames_kept fun _ _ => readMember_keeps base property
  readElement base index := frames_kept fun _ _ => readElement_keeps base index
  writeMember base property v := frames_writing (spares_writeMember base property v)
  writeElement base index v := frames_writing (spares_writeElement base index v)
  bindPattern env target v := frames_kept fun _ _ =>
    bindPattern_keeps (fun _ hm => hm) env target v
  assignName env name v := frames_kept fun _ _ =>
    assignName_keeps (fun _ hm => hm) env name v fun _ _ _ => trivial
  openFrame env := frames_kept fun _ _ => openFrame_keeps (fun _ hm => hm) env
  hoist env stmts := frames_kept fun _ _ => hoist_keeps (fun _ hm => hm) env stmts
  newFrame d := frames_kept fun _ _ => newFrame_keeps (fun _ hm => hm) d
  newArray vs _ := frames_kept fun _ _ => newArray_keeps fun _ _ => trivial
  newObject fields _ := frames_kept fun _ _ => newObject_keeps fun _ _ => trivial
  contextCall f _ args := frames_contextCall f args
  native host site ns name args := frames_kept fun _ _ =>
    call_keeps ns name (fun _ _ => trivial) fun _ _ _ _ _ => trivial
  config := frames_all (spares_context _)
  rounds := Config.rounds_id
  depth := Config.depth_id
  beginStep candle := frames_watch (spares_beginStep candle) fun _ _ _ _ _ ht => ht
  collapsed v := frames_all (spares_heap? _)

/-- Running a script changes only histories that its trace tells of. -/
theorem run_framed {receiver v : Value} {p : Program} (h : Machine.run receiver p m = .ok v m') :
    Framed (touches (Traced.run receiver p m).1) m m' := by
  have herase := (erasure.run receiver p).1 m
  rw [h] at herase
  cases hend : (Traced.run receiver p m).2 with
  | ok u n =>
    rw [hend] at herase
    cases herase
    exact (framing.run receiver p m _ _ hend).2
  | error e n =>
    rw [hend] at herase
    cases herase

end Traced

end BarScript

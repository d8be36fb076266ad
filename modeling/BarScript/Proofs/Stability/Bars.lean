import BarScript.Proofs.Bars
import BarScript.Proofs.Stability.Slots
import BarScript.Proofs.Trace.Framing

/-!
# Slots from bar to bar

A bar begins by moving every named history on by one place, and since no history
has two names none is moved twice. Then the script runs, and a tame one writes
current bars only. So what a slot held is what it held a bar ago, one place
further back, for as long as the run goes on.
-/

namespace BarScript

open Machine Correspondence List
open History (advance cut)
open Indicator (ofProgram)

/-! ## Moving on -/

namespace History

variable {α : Type} (s : History α)

theorem capacity_advance : s.advance.capacity = s.capacity := by
  obtain ⟨values, capacity⟩ := s
  cases values <;> rfl

theorem cut_cons (config : Config) (v : α) (l : List α) :
    cut config.capacity (v :: l) = v :: cut (config.maxHistory.map (· - 1)) l := by
  unfold Config.capacity
  cases config.maxHistory with
  | none => rfl
  | some c => cases c <;> simp [cut]

/-- Moving on repeats the current value and drops what the capacity does not
allow for. -/
theorem values_advance {config : Config} (hs : s.values ≠ [])
    (hcap : s.capacity = config.capacity) : ∃ v, s.values.head? = some v ∧
      s.advance.values = v :: cut (config.maxHistory.map (· - 1)) s.values := by
  obtain ⟨values, capacity⟩ := s
  cases values with
  | nil => exact absurd rfl hs
  | cons v older =>
    refine ⟨v, rfl, Eq.trans ?_ (cut_cons config v (v :: older))⟩
    show cut capacity (v :: v :: older) = _
    rw [show capacity = _ from hcap]

theorem advance_ne_nil {config : Config} (hs : s.values ≠ [])
    (hcap : s.capacity = config.capacity) : s.advance.values ≠ [] := by
  obtain ⟨v, -, hv⟩ := s.values_advance hs hcap
  rw [hv]
  exact cons_ne_nil _ _

end History

def Heap.advanceAll (h : Heap) (refs : List Ref) : Heap :=
  refs.foldl (fun h r => h.modifyHistory r advance) h

theorem Heap.size_advanceAll (h : Heap) (refs : List Ref) :
    (h.advanceAll refs).histories.size = h.histories.size :=
  List.foldlRecOn (motive := fun k : Heap => k.histories.size = h.histories.size) refs _ rfl
    fun _ hk _ _ => Array.size_modify.trans hk

/-- A history moves on once for each time it is listed. -/
theorem Heap.history_advanceAll_count (h : Heap) (refs : List Ref) (q : Ref) :
    (h.advanceAll refs).history q = advance^[refs.count q] (h.history q) := by
  induction refs generalizing h with
  | nil => rfl
  | cons r refs ih =>
    show ((h.modifyHistory r advance).advanceAll refs).history q = _
    rw [ih, Heap.history_modifyHistory]
    by_cases hq : r = q
    · subst hq
      rw [count_cons_self, Function.iterate_succ_apply]
      by_cases hr : r < h.histories.size
      · rw [if_pos ⟨rfl, hr⟩]
      · rw [if_neg fun h => hr h.2, show h.history r = {} by simp [Heap.history, hr]]
        rfl
    · rw [if_neg fun h => hq h.1, count_cons_of_ne hq]

theorem Heap.history_advanceAll (h : Heap) {refs : List Ref} (hnodup : refs.Nodup) (q : Ref) :
    (h.advanceAll refs).history q = if q ∈ refs then (h.history q).advance else h.history q := by
  rw [h.history_advanceAll_count, hnodup.count]
  split <;> rfl

namespace Machine

variable {m : Machine} {name : String}

theorem setData_of_get? (hr : m.context.data.get? name = some r) (x : Float) :
    setData name x m = .ok () { m with
      heap := m.heap.modifyHistory r fun s => s.setCurrent (.number x) } := by
  have hget : Exec.context (fun c => c.data.get? name) m = .ok (some r) m :=
    congrArg (EStateM.Result.ok · m) hr
  exact (Exec.bind_ok hget).trans rfl

theorem setData_of_none (hr : m.context.data.get? name = none) (x : Float) :
    setData name x m = .ok () ⟨(m.heap.newHistory
      (.withCurrent (.number x) m.context.config.maxHistory)).2,
      { m.context with data := m.context.data.insert name m.heap.histories.size }⟩ := by
  have hget : Exec.context (fun c => c.data.get? name) m = .ok none m :=
    congrArg (EStateM.Result.ok · m) hr
  exact (Exec.bind_ok hget).trans rfl

/-- What a bar does after the histories have moved on. -/
def countAndSet (candle : Candle) : Exec Unit := do
  Exec.modifyContext fun c => { c with steps := c.steps + 1 }
  (candleFields candle).forM fun p => setData p.1 p.2

theorem beginStep_eq (candle : Candle) : beginStep candle m = if 0 < m.context.steps then
      countAndSet candle { m with heap := m.heap.advanceAll m.context.named }
    else countAndSet candle m := by
  have hbegin : beginStep candle m = (if 0 < m.context.steps then (do
        Exec.modifyHeap fun h => h.advanceAll m.context.named
        countAndSet candle : Exec Unit)
      else countAndSet candle) m := rfl
  rw [hbegin]
  split <;> rfl

/-- The frames of a script: one outside of it, and that of its parameters. -/
def withFrames (m : Machine) (p : Program) : Machine :=
  { m with heap := ((m.heap.newFrame .empty).2.newFrame
      (.ofList (bindParams p.root.params [.context]))).2 }

theorem run_eq (receiver : Value) (p : Program) (m : Machine) : run receiver p m =
    p.root.body.run ⟨receiver, m.context.config.maxLoopIterations, callWithin receiver
      m.context.config.maxLoopIterations m.context.config.maxCallDepth
      m.context.config.maxCallDepth⟩
      [(m.heap.newFrame .empty).2.frames.size, m.heap.frames.size] (withFrames m p) := by
  show apply _ p.root [m.heap.frames.size] [.context]
    { m with heap := (m.heap.newFrame .empty).2 } = _
  rw [apply_eq]
  rfl

end Machine

namespace Tame

variable {root : String} {m n : Machine}

/-- Work between two bars: the settings and the slots stay, and the history of
every slot goes through `f`. -/
structure Between (f : History Value → History Value) (m n : Machine) : Prop where
  config : n.context.config = m.context.config
  slots : ∀ k, n.context.slots k = m.context.slots k
  history : ∀ k slot r, (m.context.slots k).get? slot = some r →
    n.heap.history r = f (m.heap.history r)

theorem Between.refl (m : Machine) : Between id m m :=
  ⟨rfl, fun _ => rfl, fun _ _ _ _ => rfl⟩

theorem Between.trans (hmn : Between f m n) (hno : Between id n o) : Between f m o where
  config := hno.config.trans hmn.config
  slots k := (hno.slots k).trans (hmn.slots k)
  history k slot r hr := by
    refine (hno.history k slot r ?_).trans (hmn.history k slot r hr)
    rw [hmn.slots]
    exact hr

/-- The slots and the data are different histories. -/
theorem Unshared.slot_ne_data (ha : Unshared m) {k : Bucket} {slot name : String} {r q : Ref}
    (hr : (m.context.slots k).get? slot = some r) (hq : m.context.data.get? name = some q) :
    q ≠ r := by
  have hr := Dict.mem_values_of_get? hr
  have hq := Dict.mem_values_of_get? hq
  have hnodup := ha.nodup
  unfold Context.named at hnodup
  rw [append_assoc, append_assoc, nodup_append] at hnodup
  refine hnodup.2.2 q hq r ?_
  cases k with
  | «let» => exact mem_append_left _ hr
  | const => exact mem_append_right _ (mem_append_left _ hr)

theorem setData_ok (hm : Orderly root m) (name : String) (x : Float) :
    ∃ n, setData name x m = .ok () n ∧ Orderly root n ∧ n.context.steps = m.context.steps ∧
      Between id m n := by
  have hnumber : ¬ (Value.number x).IsSeries ∧ Fits root (shape root) m.heap (.number x) :=
    ⟨id, trivial⟩
  cases hq : m.context.data.get? name with
  | some q =>
    refine ⟨_, setData_of_get? hq x, ⟨hm.tamed.setCurrent hnumber.1 hnumber.2, ?_⟩, rfl, rfl,
      fun _ => rfl, ?_⟩
    · exact hm.apart.modifyHistory (fun s => s.capacity_setCurrent _) fun s _ =>
        s.setCurrent_ne_nil _
    · intro k slot r hr
      have hne : ¬ (q = r ∧ q < m.heap.histories.size) :=
        fun h => hm.apart.slot_ne_data hr hq h.1
      rw [Heap.history_modifyHistory, if_neg hne]
      rfl
  | none =>
    let s : History Value := .withCurrent (.number x) m.context.config.maxHistory
    let c : Context := { m.context with data := m.context.data.insert name m.heap.histories.size }
    have hslots : ∀ k, c.slots k = m.context.slots k := fun k => by cases k <;> rfl
    refine ⟨_, setData_of_none hq x, ⟨hm.tamed.newHistory fun v hv => ?_, ?_⟩, rfl, rfl, hslots,
      fun k slot r hr => ?_⟩
    · rw [History.values_withCurrent, mem_singleton] at hv
      exact hv ▸ hnumber
    · exact (hm.apart.newHistory rfl).nameOther (Context.names_data _ _ name) rfl hslots
        hm.apart.fresh (size_lt_newHistory _ s)
    · have hlt := hm.apart.inRange r (Context.mem_named_of_slot hr)
      rw [Heap.history_newHistory, if_neg (Nat.ne_of_lt hlt)]
      rfl

theorem setFields_ok (fields : List (String × Float)) (hm : Orderly root m) :
    ∃ n, (fields.forM fun p => setData p.1 p.2) m = .ok () n ∧ Orderly root n ∧
      n.context.steps = m.context.steps ∧ Between id m n := by
  induction fields generalizing m with
  | nil => exact ⟨m, rfl, hm, rfl, .refl m⟩
  | cons p fields ih =>
    obtain ⟨n, hset, hn, hsteps, hmn⟩ := setData_ok hm p.1 p.2
    obtain ⟨o, hrest, ho, hsteps', hno⟩ := ih hn
    exact ⟨o, (Exec.bind_ok hset).trans hrest, ho, hsteps'.trans hsteps, hmn.trans hno⟩

theorem advanceAll_orderly (hm : Orderly root m) :
    Orderly root { m with heap := m.heap.advanceAll m.context.named } := by
  have hhistory := m.heap.history_advanceAll hm.apart.nodup
  have hsize := m.heap.size_advanceAll m.context.named
  refine ⟨?_, fun r hr => ?_, hm.apart.ordered, hm.apart.nodup, fun r hr => ?_,
    fun k slot r hr => ?_⟩
  · exact List.foldlRecOn (motive := Tamed root (shape root)) m.context.named _ hm.tamed
      fun _ hk _ _ =>
      hk.modifyHistory fun _ _ hv => .inr (History.mem_advance hv)
  · rw [hhistory]
    split
    · rw [History.capacity_advance]
      exact hm.apart.capacity r (hsize ▸ hr)
    · exact hm.apart.capacity r (hsize ▸ hr)
  · rw [hsize]
    exact hm.apart.inRange r hr
  · have hmem := Context.mem_named_of_slot hr
    rw [hhistory, if_pos hmem]
    exact History.advance_ne_nil _ (hm.apart.filled k slot r hr)
      (hm.apart.capacity r (hm.apart.inRange r hmem))

/-- **Beginning a bar** moves every slot on, once there has been a bar. -/
theorem beginStep_ok (hm : Orderly root m) (candle : Candle) :
    ∃ n, beginStep candle m = .ok () n ∧ Orderly root n ∧
      n.context.steps = m.context.steps + 1 ∧ Between
        (if 0 < m.context.steps then advance else id) m n := by
  -- what every bar does after the moving
  have hrest : ∀ {n : Machine} {f : History Value → History Value}, Orderly root n →
      n.context.steps = m.context.steps → Between f m n → ∃ o, countAndSet candle n = .ok () o ∧
      Orderly root o ∧ o.context.steps = m.context.steps + 1 ∧ Between f m o :=
      fun {n f} hn hsteps hmn => by
    let c : Context := { n.context with steps := n.context.steps + 1 }
    have hslots : ∀ k, c.slots k = n.context.slots k := fun k => by cases k <;> rfl
    have hc : Orderly root { n with context := c } := ⟨hn.tamed, hn.apart.of_context rfl hslots rfl⟩
    obtain ⟨o, hset, ho, hsteps', hco⟩ := setFields_ok (candleFields candle) hc
    have hnc : Between id n { n with context := c } := ⟨rfl, hslots, fun _ _ _ _ => rfl⟩
    exact ⟨o, hset, ho, hsteps'.trans (congrArg (· + 1) hsteps), (hmn.trans hnc).trans hco⟩
  rw [beginStep_eq]
  split
  · refine hrest (n := { m with heap := m.heap.advanceAll m.context.named })
      (advanceAll_orderly hm) rfl ⟨rfl, fun _ => rfl, fun k slot r hr => ?_⟩
    rw [m.heap.history_advanceAll hm.apart.nodup, if_pos (Context.mem_named_of_slot hr)]
  · exact hrest hm rfl (.refl m)

/-! ## Running a bar -/

/-- A tame script: it is handed the context under the name `root` and writes as a
tame script does. -/
structure Script (root : String) (p : Program) : Prop where
  params : ∃ id : Ident, id.name = root ∧ p.root.params = [id]
  body : p.root.body.All (shape root)

/-- Running a tame script keeps the machine orderly. -/
theorem run_endings (hp : Script root p) (hm : Orderly root m)
    (hreceiver : Fits root (shape root) m.heap receiver) :
    (base root).Endings m (base root).val (run receiver p m) (run receiver p m) := by
  obtain ⟨id, hid, hparams⟩ := hp.params
  -- the frames of the script: one outside of it, and that of its parameter
  let d : Dict Value := .ofList (bindParams p.root.params [.context])
  have hd : d = Dict.empty.insert root .context := by
    show Dict.ofList (bindParams p.root.params [.context]) = _
    rw [hparams, ← hid]
    rfl
  let h : Heap := (m.heap.newFrame .empty).2
  let n : Machine := { m with heap := (h.newFrame d).2 }
  have hframe : ∀ r, (m.heap.frame r).get? root = some .context →
      (n.heap.frame r).get? root = some .context :=
    fun r hr => frame_newFrame d r (frame_newFrame .empty r hr)
  have hh : Tamed root (shape root) h :=
    hm.tamed.newFrame (fun v hv => nomatch hv) fun v hv => nomatch hv
  have htamed : Tamed root (shape root) n.heap := by
    refine hh.newFrame (fun v hv => ?_) fun v hv => ?_
    · rw [hd] at hv
      rcases Dict.mem_values_insert hv with rfl | hv
      · trivial
      · cases hv
    · rw [hd, Dict.get?_insert_self] at hv
      exact (Option.some.inj hv).symm
  have hn : Orderly root n := hm.of_heap htamed rfl
  have hmn : Grown root m n := .of_heap (.of_histories rfl hframe)
  have hsees : Sees root n.heap [h.frames.size, m.heap.frames.size] := by
    refine ⟨h.frames.size, mem_cons_self, ?_⟩
    rw [Heap.frame_newFrame, if_pos rfl, hd, Dict.get?_insert_self]
  have hval : (base root).val n receiver receiver := ⟨rfl, hreceiver.mono hframe⟩
  have hhosts := (simulation root).callWithin_hosts hval m.context.config.maxLoopIterations
    m.context.config.maxCallDepth m.context.config.maxCallDepth
  rw [run_eq]
  exact ((simulation root).body_agree ⟨hhosts, rfl, hsees⟩ hp.body n n ⟨rfl, rfl, hn⟩).weaken hmn
    fun _ _ _ _ hv => hv

/-- A completed bar: it is begun, and then the machine grows, and the trace of the script
tells which histories change. -/
theorem bar_ok {ind : Indicator} (hp : Script root ind.program) (hm : Orderly root m)
    (hreceiver : ∀ h, Fits root (shape root) h ind.receiver) {s : Snapshot}
    (hbar : ind.bar c m = .ok s n) : ∃ m₀, beginStep c m = .ok () m₀ ∧ Orderly root m₀ ∧
      m₀.context.steps = m.context.steps + 1 ∧
      Between (if 0 < m.context.steps then advance else id) m m₀ ∧
      Grown root m₀ n ∧ Orderly root n ∧
      Framed (touches (Traced.run ind.receiver ind.program m₀).1) m₀ n := by
  obtain ⟨m₀, hbegin, hm₀, hsteps, hbetween⟩ := beginStep_ok hm c
  refine ⟨m₀, hbegin, hm₀, hsteps, hbetween, ?_⟩
  have hinvoke : ind.invoke m₀ = .ok s n := (Exec.bind_ok hbegin).symm.trans hbar
  obtain ⟨v, m₁, hrun, hsnap⟩ := Exec.bind_eq_ok hinvoke
  obtain ⟨-, rfl⟩ := Exec.heap?_eq_ok hsnap
  have hend := run_endings hp hm₀ (hreceiver m₀.heap)
  rw [hrun] at hend
  cases hend with
  | ok grown rel _ =>
    obtain ⟨rfl, -, hn⟩ := rel
    exact ⟨grown, hn, Traced.run_framed hrun⟩

/-! ## The receiver -/

theorem tamed_ofJson (j : Json) : Tamed root S (({} : Heap).ofJson j).2 := by
  obtain ⟨-, hh, -, hframes⟩ := Heap.ofJson_data j Heap.populated_empty
  refine ⟨hh.imp fun _ hv => Value.fits_of_isData hv, fun r v hv => ?_⟩
  unfold Heap.frame at hv
  rw [hframes] at hv
  cases hv

theorem histories_ofJson (j : Json) : (({} : Heap).ofJson j).2.histories = #[] :=
  (Heap.ofJson_data j Heap.populated_empty).2.2.1

theorem fits_receiver (p : Program) (receiver : Json) :
    (ofProgram p receiver).receiver.Fits S sees :=
  Value.fits_of_isData (Heap.ofJson_data receiver Heap.populated_empty).1

theorem machine_orderly (p : Program) (receiver : Json) (config : Config) :
    Orderly root ((ofProgram p receiver).machine config) := by
  refine ⟨tamed_ofJson receiver, fun r hr => ?_, fun k => ?_, nodup_nil,
    fun _ hr => (nomatch hr), fun k _ _ hr => ?_⟩
  · have hr : r < (({} : Heap).ofJson receiver).2.histories.size := hr
    rw [histories_ofJson] at hr
    exact absurd hr (Nat.not_lt_zero r)
  · cases k <;> exact Dict.ordered_empty
  · cases k <;> cases hr

/-! ## Whole runs -/

/-- What is known of a machine between bars: it is orderly, and slots are there
only after a bar. -/
structure Reached (root : String) (config : Config) (m : Machine) : Prop where
  orderly : Orderly root m
  config : m.context.config = config
  begun : ∀ k slot r, (m.context.slots k).get? slot = some r → 0 < m.context.steps

theorem rows_reached {ind : Indicator} (hp : Script root ind.program)
    (hreceiver : ∀ h, Fits root (shape root) h ind.receiver) (hm : Reached root config m)
    (hrows : ind.rows cs m = .ok rows n) :
    Reached root config n := by
  induction cs generalizing m rows with
  | nil =>
    cases hrows
    exact hm
  | cons c cs ih =>
    obtain ⟨s, o, hbar, hrest⟩ := Exec.bind_eq_ok hrows
    obtain ⟨rest, o', hrest, hpure⟩ := Exec.bind_eq_ok hrest
    cases hpure
    refine ih ?_ hrest
    obtain ⟨m₀, -, -, hsteps, hbetween, hgrown, ho, -⟩ := bar_ok hp hm.orderly hreceiver hbar
    refine ⟨ho, hgrown.config.trans (hbetween.config.trans hm.config), fun _ _ _ _ => ?_⟩
    rw [hgrown.steps, hsteps]
    exact Nat.succ_pos _

end Tame

/-! ## What a bar makes of slots -/

def Machine.slotValues? (m : Machine) (k : Bucket) (slot : String) : Option (List Value) :=
  ((m.context.slots k).get? slot).map fun r => (m.heap.history r).values

/-- What one bar makes of the slots: `m` is the machine before it, `m'` the one after it, and
`events` is the trace of the script in it. -/
structure SlotsKept (events : List Event) (m m' : Machine) : Prop where
  /-- A slot that was there is there, and has what it had one place further
  back, as far as the settings allow. -/
  older : ∀ k slot values, m.slotValues? k slot = some values → ∃ v, m'.slotValues? k slot =
      some (v :: cut (m.context.config.maxHistory.map (· - 1)) values)
  /-- A slot that is new has one value. -/
  created : ∀ k slot values, m.slotValues? k slot = none → m'.slotValues? k slot = some values →
    values.length = 1
  /-- A slot whose history nothing in the trace reaches has the value of the bar before. -/
  unwritten : ∀ k slot r, (m.context.slots k).get? slot = some r →
    (∀ t ∈ touches events, t.reaches m' r = false) →
      (m'.slotValues? k slot).bind List.head? = (m.slotValues? k slot).bind List.head?

namespace Tame

variable {root : String} {m m₀ m' : Machine} {config : Config}

theorem slotValues?_begun (hm : Reached root config m)
    (hbetween : Between (if 0 < m.context.steps then advance else id) m m₀)
    (hslot : m.slotValues? k slot = some values) :
    ∃ r v, (m₀.context.slots k).get? slot = some r ∧ values.head? = some v ∧
      (m₀.heap.history r).values = v :: cut (m.context.config.maxHistory.map (· - 1))
        values := by
  obtain ⟨r, hr, rfl⟩ := Option.map_eq_some_iff.1 hslot
  have hlt := hm.orderly.apart.inRange r (Context.mem_named_of_slot hr)
  obtain ⟨v, hv, hadvance⟩ := (m.heap.history r).values_advance
    (hm.orderly.apart.filled k slot r hr) (hm.orderly.apart.capacity r hlt)
  refine ⟨r, v, ?_, hv, ?_⟩
  · rw [hbetween.slots]
    exact hr
  · rw [hbetween.history k slot r hr, if_pos (hm.begun k slot r hr), hadvance]

theorem slotsKept {events : List Event} (hm : Reached root config m)
    (hbetween : Between (if 0 < m.context.steps then advance else id) m m₀)
    (hm₀ : Orderly root m₀) (hgrown : Grown root m₀ m') (hm' : Orderly root m')
    (hframed : Framed (touches events) m₀ m') : SlotsKept events m m' where
  older k slot values hslot := by
    obtain ⟨r, v, hr, -, hbegun⟩ := slotValues?_begun hm hbetween hslot
    have hlt := hm₀.apart.inRange r (Context.mem_named_of_slot hr)
    have hr' := hgrown.slots k slot r hr
    have hfilled := hm'.apart.filled k slot r hr'
    have htail := hgrown.heap.older r hlt
    rw [hbegun, tail_cons] at htail
    refine ⟨(m'.heap.history r).values.head hfilled, ?_⟩
    unfold slotValues?
    rw [hr', Option.map_some, ← htail, cons_head_tail]
  created k slot values hnone hsome := by
    obtain ⟨r, hr, rfl⟩ := Option.map_eq_some_iff.1 hsome
    have hnone₀ : (m₀.context.slots k).get? slot = none := by
      rw [hbetween.slots]
      exact Option.map_eq_none_iff.1 hnone
    have htail := hgrown.heap.fresh r (hgrown.created k slot r hnone₀ hr)
    have hfilled := hm'.apart.filled k slot r hr
    rw [← cons_head_tail hfilled, htail]
    rfl
  unwritten k slot r hr hquiet := by
    have hslot : m.slotValues? k slot = some (m.heap.history r).values := by
      unfold slotValues?
      rw [hr, Option.map_some]
    have hr₀ : (m₀.context.slots k).get? slot = some r := by
      rw [hbetween.slots]
      exact hr
    obtain ⟨q, v, hq, hv, hbegun⟩ := slotValues?_begun hm hbetween hslot
    cases hr₀.symm.trans hq
    rw [hslot]
    unfold slotValues?
    rw [hgrown.slots k slot r hr₀, Option.map_some, hframed.history r hquiet, hbegun]
    exact hv.symm

/-- **Slots of a tame script** go from bar to bar. -/
theorem Script.slotsKept (hp : Script root p) (receiver : Json) (config : Config) {s : Snapshot}
    (hrows : (ofProgram p receiver).rows cs
      ((ofProgram p receiver).machine config) = .ok rows m)
    (hbegin : beginStep c m = .ok () m₀)
    (hbar : (ofProgram p receiver).bar c m = .ok s m') :
    SlotsKept (Traced.run (ofProgram p receiver).receiver p m₀).1 m m' := by
  have hreceiver : ∀ h, Fits root (shape root) h (ofProgram p receiver).receiver :=
    fun _ => fits_receiver p receiver
  have hstart : Reached root config ((ofProgram p receiver).machine config) :=
    ⟨machine_orderly p receiver config, rfl, fun k _ _ hr => by cases k <;> exact nomatch hr⟩
  have hprogram : Script root (ofProgram p receiver).program := hp
  have hm := rows_reached hprogram hreceiver hstart hrows
  obtain ⟨n, hn, hm₀, -, hbetween, hgrown, hm', hframed⟩ :=
    bar_ok hprogram hm.orderly hreceiver hbar
  rw [hbegin] at hn
  cases hn
  exact Tame.slotsKept hm hbetween hm₀ hgrown hm' hframed

end Tame

end BarScript

import BarScript.Proofs.Parsed
import BarScript.Proofs.Retention.Library

/-!
# Keeping fewer bars is not seen by scripts that look at fewer

A run is followed with its trace where everything is kept, and without it where
histories keep a number of bars. As long as the trace looks at no more bars than these,
the two go the same way. So a script that never looks further back gives the same
output if histories keep no more.
-/

namespace BarScript

open Machine Traced List

namespace Retention

variable {c : Nat} {α β γ δ : Type}

variable {p : α → β} {P : α → Prop} {x : Exec α} {indices : Heap → List Nat} {m : Machine}

/-- A traced run that keeps everything, beside a plain run that keeps `c` bars: if the
first ends well and looks at no more bars, the second ends like it. -/
def Withstands (c : Nat) (p : α → β) (P : α → Prop) (x : Traced α) (y : Exec β) : Prop :=
  ∀ m, Unbounded m → (∀ i, Event.history i ∈ (x m).1 → i < c) → ∀ a m', (x m).2 = .ok a m' →
    P a ∧ Unbounded m' ∧ y (m.keep c) = .ok (p a) (m'.keep c)

theorem withstands_pure (h : p a = b) (ha : P a) :
    Withstands c p P (pure a) (pure b) := fun _ hm _ _ _ heq => by
  cases heq
  exact ⟨ha, hm, h ▸ rfl⟩

/-- **Sequences**: the trace of a sequence has the traces of its parts. -/
theorem Withstands.bind {q : γ → δ} {Q : γ → Prop} {x : Traced α} {y : Exec β} {f : α → Traced γ}
    {g : β → Exec δ} (hx : Withstands c p P x y)
    (hfg : ∀ a, P a → Withstands c q Q (f a) (g (p a))) : Withstands c q Q (x >>= f) (y >>= g) := by
  intro m hm hreads b m' hb
  have hx := hx m hm
  rw [bind_apply] at hreads hb
  revert hx hreads hb
  generalize x m = t
  obtain ⟨events, ending⟩ := t
  intro hreads hb hx
  cases ending with
  | error e m₁ => cases hb
  | ok a m₁ =>
    obtain ⟨ha, hm₁, hkept⟩ := hx (fun i hi => hreads i (mem_append_left _ hi)) a m₁ rfl
    obtain ⟨hQ, hm', hkept'⟩ := hfg a ha m₁ hm₁
      (fun i hi => hreads i (mem_append_right _ hi)) b m' hb
    exact ⟨hQ, hm', (Exec.bind_ok hkept).trans hkept'⟩

theorem withstands_watch {events : Machine → Ending α → List Event}
    (hx : ∀ m, Unbounded m → (∀ i, Event.history i ∈ events m (x m) → i < c) → Same c P x m) :
    Withstands c id P (watch events x) x :=
  fun m hm hreads a m' h => hx m hm hreads a m' h

theorem withstands_quiet (hx : ∀ m, Unbounded m → Same c P x m) : Withstands c id P (quiet x) x :=
  withstands_watch fun m hm _ => hx m hm

theorem withstands_reading (hx : ∀ m, Unbounded m → (∀ i ∈ indices m.heap, i < c) → Same c P x m) :
    Withstands c id P (reading indices x) x :=
  withstands_watch fun m hm hreads =>
    hx m hm fun i hi => hreads i (mem_map_of_mem hi)

theorem withstands_writing {refs : Machine → List Ref}
    (hx : ∀ m, Unbounded m → (∀ i ∈ indices m.heap, i < c) → Same c P x m) :
    Withstands c id P (writing indices refs x) x :=
  withstands_watch fun m hm hreads => hx m hm fun i hi =>
    hreads i (mem_append_left _ (mem_map_of_mem hi))

/-! ## Bars -/

theorem same_setData (hm : Unbounded m) (hc : 1 ≤ c) (name : String) (x : Float) :
    SameAny c (setData name x) m := by
  have hx : ¬ (Value.number x).IsSeries := id
  refine same_context_bind rfl ?_
  cases m.context.data.get? name with
  | some r => exact same_setCurrent hm hc hx
  | none =>
    exact (same_newSeries hm hc hx).bind fun _ _ _ _ hm' => same_modifyContext hm' rfl rfl

theorem same_advanceAll (hm : Unbounded m) (hc : 1 ≤ c) (refs : List Ref) :
    SameAny c (Exec.modifyHeap fun h => h.advanceAll refs) m := by
  induction refs generalizing m with
  | nil => exact same_modifyHeap hm rfl hm.sound hm.capacity
  | cons r refs ih =>
    have hadvance : SameAny c
        (Exec.modifyHeap fun h => h.modifyHistory r History.advance) m :=
      same_modifyHistory hm (fun s hs => ⟨s.keep_advance hc hs, s.capacity_advance.trans hs⟩)
        fun s hs v hv => hs v (History.mem_advance hv)
    exact hadvance.bind fun _ _ _ _ hm' => ih hm'

theorem same_beginStep (hm : Unbounded m) (hc : 1 ≤ c) (candle : Candle) :
    SameAny c (beginStep candle) m := by
  have hrest : ∀ {m : Machine}, Unbounded m → SameAny c (countAndSet candle) m :=
    fun hm => (same_modifyContext hm rfl rfl).bind fun _ _ _ _ hm' =>
      same_forM hm' fun p _ _ hm'' => same_setData hm'' hc p.1 p.2
  have hbegin : ∀ m : Machine, beginStep candle m = (if 0 < m.context.steps then (do
      Exec.modifyHeap fun h => h.advanceAll m.context.named
      countAndSet candle) else countAndSet candle) m := fun _ => rfl
  intro a m' h
  rw [hbegin] at h ⊢
  have hsteps : (m.keep c).context.steps = m.context.steps := rfl
  rw [hsteps]
  split
  · rename_i hpos
    rw [if_pos hpos] at h
    exact ((same_advanceAll hm hc _).bind fun _ _ _ _ hm' => hrest hm') a m' h
  · rename_i hpos
    rw [if_neg hpos] at h
    exact hrest hm a m' h

theorem withstands_contextCall (hc : 1 ≤ c) (f : ContextFn) (host : Host) (args : List Value) :
    Withstands c id (fun _ => True) (contextCall f args)
      (Machine.callValue host (.contextFn f) args) := by
  cases f with
  | init => exact withstands_writing fun _ hm hreads => same_init hm hc _ hreads
  | param =>
    refine Withstands.bind (P := fun _ => True) (withstands_reading fun m hm hreads =>
      same_heap hm ?_ trivial) fun key _ => ?_
    · cases hv : args[2]? with
      | none => rfl
      | some v =>
        show (m.heap.keep c).text? v = m.heap.text? v
        unfold Heap.text?
        rw [Heap.current_keep (Library.within_of_argReads hv hreads)]
    · cases key with
      | none => exact withstands_quiet fun _ _ => same_fail _
      | some id =>
        exact withstands_watch fun _ hm hreads => same_param hm hc (fun i hi =>
          hreads i (mem_append_left _ (mem_map_of_mem hi))) id
  | precision =>
    exact withstands_reading fun _ hm hreads =>
      same_precision hm (Library.arg_within hreads)

/-- **Histories that keep `c` bars** against histories that keep everything. -/
def retention (hc : 1 ≤ c) : Tracking where
  Tracks := Withstands c
  Held v := ¬ v.IsSeries
  settings := Config.keep c
  result := withstands_pure
  bind := Withstands.bind
  fail _ := withstands_quiet fun _ _ => same_fail _
  uncallable v := withstands_quiet fun m _ _ _ h => absurd h (uncallable_ne_ok m)
  stir h := fun m hm hreads => h m hm fun i hi => hreads i (mem_cons_of_mem _ hi)
  overheard h := fun m hm hreads r m' hr => by
    rw [overheard_events] at hreads
    exact h m hm hreads r.1 m' (overheard_eq_ok hr).1
  peek v hf := fun m => hf (m.heap.current v) m
  current v := withstands_reading fun m hm hv =>
    same_heap hm (Heap.current_keep hv) (hm.sound.current v)
  truthy v := withstands_reading fun _ hm hv => same_heap hm (Heap.truthy_keep hm.sound hv) trivial
  number v := withstands_reading fun _ hm hv => same_heap hm (Heap.number_keep hm.sound hv) trivial
  unary op v := withstands_reading fun _ hm hv =>
    same_heap hm (Heap.unary_keep hm.sound op hv) trivial
  settles op v := withstands_reading fun _ hm hv =>
    same_heap hm (Heap.settles_keep hm.sound op hv) trivial
  binary op l r := withstands_reading fun _ hm hreads =>
    same_heap? hm (Heap.binary?_keep hm.sound op (fun i hi => hreads i (mem_append_left _ hi))
      fun i hi => hreads i (mem_append_right _ hi)) fun _ _ => trivial
  readName env x := withstands_watch fun _ hm _ => same_readName hm env x
  readMember base property := withstands_reading fun _ hm hbase => same_readMember hm hbase property
  readElement base index := withstands_reading fun _ hm hreads => same_readElement hm hreads
  writeMember base property v := withstands_writing fun _ hm hreads =>
    same_writeMember hm hc property hreads
  writeElement base index v := withstands_writing fun _ hm hreads =>
    same_writeElement hm hc (fun i hi => hreads i (mem_append_left _ hi))
      fun i hi => hreads i (mem_append_right _ hi)
  bindPattern env target v := withstands_reading fun _ hm hreads =>
    same_bindPattern hm env target hreads
  assignName env name v := withstands_quiet fun _ hm => same_assignName hm env name v
  openFrame env := withstands_quiet fun _ hm => same_openFrame hm env
  hoist env stmts := withstands_quiet fun _ hm => same_hoist hm env stmts
  newFrame d := withstands_quiet fun _ hm => same_newFrame hm d
  newArray vs hvs := withstands_quiet fun _ hm => (same_newArray hm hvs).weaken fun _ _ => trivial
  newObject fields hfields := withstands_quiet fun _ hm =>
    (same_newObject hm hfields).weaken fun _ _ => trivial
  contextCall := withstands_contextCall hc
  native host site ns name args := withstands_watch fun m hm hreads =>
    Library.same_call hm ns name fun i hi =>
      hreads i (mem_cons_of_mem _ (mem_map_of_mem hi))
  config := fun m hm _ config m' h => by
    cases h
    exact ⟨trivial, hm, rfl⟩
  rounds _ := rfl
  depth _ := rfl
  beginStep candle := withstands_watch fun _ hm _ => same_beginStep hm hc candle
  collapsed v := withstands_reading fun _ hm hv =>
    same_heap? hm (Heap.collapsed?_keep hm.sound hv) fun _ _ => trivial

/-- A machine that no bar has run on keeps everything if its settings say so. -/
theorem unbounded_machine (p : Program) (receiver : Json) (config : Config) :
    Unbounded ((Indicator.ofProgram p receiver).machine { config with maxHistory := none }) := by
  obtain ⟨-, hheap, hhistories, -⟩ := Heap.ofJson_data receiver Heap.populated_empty
  refine ⟨hheap.sound, fun r => ?_, rfl⟩
  show ((({} : Heap).ofJson receiver).2.history r).capacity = none
  unfold Heap.history
  rw [hhistories]
  rfl

theorem keep_machine (p : Program) (receiver : Json) (config : Config) :
    ((Indicator.ofProgram p receiver).machine { config with maxHistory := none }).keep c =
      (Indicator.ofProgram p receiver).machine { config with maxHistory := some c } := by
  have hempty : (({} : Heap).ofJson receiver).2.histories.map (History.keep c) =
      (({} : Heap).ofJson receiver).2.histories := by
    rw [Tame.histories_ofJson]
    exact Array.map_empty
  have hheap : (({} : Heap).ofJson receiver).2.keep c = (({} : Heap).ofJson receiver).2 :=
    congrArg (fun histories => { (({} : Heap).ofJson receiver).2 with histories }) hempty
  exact congrArg (Machine.mk · _) hheap

end Retention

/-- **Keeping fewer bars is not seen by scripts that look at fewer.** Take any script,
receiver, candles and settings, and a number `c` of bars, at least one. If the run that
keeps everything ends well, and every place of a history that it looks at (a current
value, an element, the far end of a window that is full) is less than `c` bars back,
then the run that keeps `c` bars ends well, with the same output. -/
theorem run_keeping_fewer_bars {p : Program} {receiver : Json} {config : Config}
    {candles : List Candle} {c : Nat} {o : Output} (hc : 1 ≤ c)
    (hrun : ((Indicator.ofProgram p receiver).run { config with maxHistory := none }
      candles).1.map Prod.fst = .ok o)
    (hreads : ∀ i, Event.history i ∈ (Indicator.ofProgram p receiver).trace
      { config with maxHistory := none } candles → i < c) :
    ((Indicator.ofProgram p receiver).run { config with maxHistory := some c }
      candles).1.map Prod.fst = .ok o := by
  rw [Indicator.run_outcome] at hrun ⊢
  have herase := rows_erases (Indicator.ofProgram p receiver) candles
    ((Indicator.ofProgram p receiver).machine { config with maxHistory := none })
  have hkept := (Retention.retention hc).rows (Indicator.ofProgram p receiver) candles
    ((Indicator.ofProgram p receiver).machine { config with maxHistory := none })
    (Retention.unbounded_machine p receiver config) hreads
  rw [herase] at hrun
  rw [← Retention.keep_machine p receiver config]
  revert hrun hkept
  generalize (Traced.rows (Indicator.ofProgram p receiver) candles _).2 = ending
  intro hrun hkept
  cases ending with
  | error e m => exact nomatch hrun
  | ok rows m =>
    rw [(hkept rows m rfl).2.2]
    exact hrun

/-- Whether an event looks less than so many bars back. -/
def Event.isWithin (c : Nat) : Event → Bool
  | .history i => i < c
  | _ => true

/-- The mean of the last two closes, and the close before:
`c => [ta.sma(c.data.close, 2), c.data.close[1]]`.
-/
def twoBarsText : String :=
  "c => [ta.sma(c.data.close, 2), c.data.close[1]]"

def threeDays : List Candle :=
  [.flat 1 10, .flat 2 20, .flat 3 30]

set_option maxRecDepth 100000 in
theorem run_keeping_fewer_bars_twoOfThree :
    ∃ p o, parse twoBarsText = .ok p ∧ 1 ≤ 2 ∧
      ((Indicator.ofProgram p .null).run { ({} : Config) with maxHistory := none }
        threeDays).1.map Prod.fst = .ok o ∧
      (∀ i, Event.history i ∈ (Indicator.ofProgram p .null).trace
        { ({} : Config) with maxHistory := none } threeDays → i < 2) ∧
      ((Indicator.ofProgram p .null).run { ({} : Config) with maxHistory := some 2 }
        threeDays).1.map Prod.fst = .ok o := by
  have h : Except.gives (fun p =>
      Except.gives (fun _ => ((Indicator.ofProgram p .null).trace
          { ({} : Config) with maxHistory := none } threeDays).all (Event.isWithin 2))
        (((Indicator.ofProgram p .null).run { ({} : Config) with maxHistory := none }
          threeDays).1.map Prod.fst)) (parse twoBarsText) = true := by
    refine gives_parse String.toList_ofList ?_
    decide +kernel
  obtain ⟨p, hparse, h⟩ := Except.exists_of_gives h
  obtain ⟨o, hrun, h⟩ := Except.exists_of_gives h
  have hreads : ∀ i, Event.history i ∈ (Indicator.ofProgram p .null).trace
      { ({} : Config) with maxHistory := none } threeDays → i < 2 :=
    fun i hi => of_decide_eq_true (List.all_eq_true.1 h _ hi)
  exact ⟨p, o, hparse, by decide, hrun, hreads, run_keeping_fewer_bars (by decide) hrun hreads⟩

end BarScript

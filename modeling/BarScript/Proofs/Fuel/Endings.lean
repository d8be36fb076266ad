import BarScript.Proofs.Arguments.Machines
import BarScript.Proofs.Cycles
import BarScript.Proofs.Fuel.Runs
import BarScript.Proofs.Parsed

/-!
# How runs end

What is known of runs on fuel, read off for three questions: whether a script comes to an
end at all, what the machine is like on the way, and what may bring a run down.
-/

namespace BarScript

open Machine Relation

/-! ## Two regimes -/

namespace Regime

/-- The regime of all machines with given settings, on which only what has no text or copy
keeps a run from ending. -/
def ofSettings (config : Config) : Regime.Wide where
  inv m := m.context.config = config
  fits _ := True
  stores _ := True
  fails h m := h = .endless → ∃ v, m.heap.Unending v
  fits_of_not_func _ := trivial
  fits_of_stores _ := trivial
  stores_of_fits _ _ := trivial
  history _ _ _ _ := trivial
  array _ _ _ _ := trivial
  object _ _ _ _ := trivial
  newHistory hm _ := hm
  newArray hm _ := hm
  newObject hm _ := hm
  modifyHistory hm _ := hm
  modifyArray hm _ := hm
  insertField hm _ := hm
  context hm hc := hc.trans hm
  common _ _ h := nomatch h
  unending _ hv _ := ⟨_, hv⟩

theorem ofSettings_lax (config : Config) : (ofSettings config).Lax where
  fits _ := trivial
  frames _ hm := hm
  error _ _ h := nomatch h
  shared _ h := nomatch h

/-- The regime of sound machines with given settings, on which a reading is without end only
if something contains itself. -/
def sound (config : Config) : Regime.Wide where
  inv m := m.heap.Sound ∧ m.context.config = config
  fits _ := True
  stores v := ¬ v.IsSeries
  fails h m := h = .endless → m.heap.Cyclic
  fits_of_not_func _ := trivial
  fits_of_stores _ := trivial
  stores_of_fits hv _ := hv
  history hm := hm.1.history
  array hm := hm.1.array
  object hm := hm.1.object
  newHistory hm hv := ⟨hm.1.newHistory hv, hm.2⟩
  newArray hm hv := ⟨hm.1.newArray hv, hm.2⟩
  newObject hm hv := ⟨hm.1.newObject (Dict.ordered_ofList _) fun v hmem => by
    obtain ⟨p, hp, rfl⟩ := List.mem_map.1 (Dict.mem_values_ofList hmem)
    exact hv p hp, hm.2⟩
  modifyHistory hm hf := ⟨hm.1.modifyHistory hf, hm.2⟩
  modifyArray hm hf := ⟨hm.1.modifyArray hf, hm.2⟩
  insertField hm hv := ⟨hm.1.insertField hv, hm.2⟩
  context hm hc := ⟨hm.1, hc.trans hm.2⟩
  common _ _ h := nomatch h
  unending hm hv _ := Heap.cyclic_of_unending hm.1 hv

theorem sound_lax (config : Config) : (sound config).Lax where
  fits _ := trivial
  frames _ hm := ⟨⟨hm.1.history, hm.1.array, hm.1.object, hm.1.ordered⟩, hm.2⟩
  error _ _ h := nomatch h
  shared _ h := nomatch h

end Regime

theorem Indicator.sound_machine (p : Program) (receiver : Json) (config : Config) :
    (Regime.sound config).inv ((Indicator.ofProgram p receiver).machine config) :=
  ⟨(Arguments.kept_machine (S := Shape.any) p receiver config).populated.sound, rfl⟩

/-! ## Scripts come to an end -/

/-- The next count in a word of 64 bits. -/
def wordNext (n : Nat) : Nat :=
  (UInt64.ofNat n + 1).toNat

theorem wordNext_eq (hn : n < 2 ^ 64 - 1) : wordNext n = n + 1 := by
  have hofNat : (UInt64.ofNat n).toNat = n := UInt64.toNat_ofNat_of_lt' (by
    simp only [UInt64.size]
    omega)
  unfold wordNext
  rw [UInt64.toNat_add, hofNat, UInt64.toNat_one]
  exact Nat.mod_eq_of_lt (by omega)

/-- **Every script comes to an end.** Run a script on any machine, with loops that count in a
word of 64 bits and a limit below the largest of these. Then some amount of fuel is enough,
more does not matter, and the end is that of the recursion on rounds and calls, with the
counter of calls as it was. In the log every loop begins its body in turn, one by one and not
above the limit, and every call is entered while fewer than the limit are open and is left
with the counter that it was entered with. The end is a value or an error, unless a text or a
copy is asked of a value that has none, or a history is assigned into itself; and it is the
latter exactly if the log tells of such an assignment. -/
theorem scripts_come_to_an_end (p : Program) (receiver : Value) (m : Machine)
    (hlimit : m.context.config.maxLoopIterations < 2 ^ 64 - 1) :
    ∃ N log, (∀ n, N ≤ n → Fuel.run wordNext n receiver p ⟨m, 0⟩ =
        some (log, Ending.within 0 (Machine.run receiver p m))) ∧
      InOrder m.context.config.maxLoopIterations m.context.config.maxCallDepth 0 log ∧
      (∀ k ∈ log,
        k.Within m.context.config.maxLoopIterations m.context.config.maxCallDepth) ∧
      ((∃ v m', Machine.run receiver p m = .ok v m') ∨
        (∃ e m', Machine.run receiver p m = .error (.error e) m') ∨
        (∃ m', Machine.run receiver p m = .error .endless m' ∧ ∃ v, m'.heap.Unending v) ∨
        SharedIn log) ∧
      (SharedIn log ↔ ∃ m', Machine.run receiver p m = .error .sharedWrite m') := by
  obtain ⟨N, log, hrun, horderly, htells⟩ :=
    Fuel.run_ends (Regime.ofSettings_lax m.context.config) (fun hm => hm)
      (fun k hk => wordNext_eq (Nat.lt_of_le_of_lt hk hlimit)) receiver p m rfl
  refine ⟨N, log, hrun, horderly, horderly.within, ?_, htells.shared⟩
  obtain ⟨-, hending, hshared⟩ := htells
  revert hending hshared
  cases Machine.run receiver p m with
  | ok v m' => exact fun _ _ => .inl ⟨v, m', rfl⟩
  | error h m' =>
    intro hending hshared
    cases h with
    | error e => exact .inr (.inl ⟨e, m', rfl⟩)
    | endless => exact .inr (.inr (.inl ⟨m', rfl, hending.2 rfl⟩))
    | sharedWrite => exact .inr (.inr (.inr (hshared.2 ⟨m', rfl⟩)))

/-- A loop whose test is never false, in a function that calls itself first:
`c => { const f = n => { if (n) f(n - 1); while (true) n = n + 1; return n }; return f(1) }`. -/
def runawayText : String :=
  "c => \x7b const f = n => \x7b if (n) f(n - 1); while (true) n = n + 1; return n \x7d; " ++
    "return f(1) \x7d"

/-- Whether a run stops at a loop with a given limit. -/
def Ending.stopsLoop {α : Type} (limit : Nat) : Ending α → Bool
  | .error (.error (.loopLimit n)) _ => n == limit
  | _ => false

theorem Ending.exists_of_stopsLoop {α : Type} {limit : Nat} {r : Ending α}
    (h : Ending.stopsLoop limit r = true) : ∃ m, r = .error (.error (.loopLimit limit)) m := by
  unfold Ending.stopsLoop at h
  split at h
  · exact ⟨_, by rw [eq_of_beq h]⟩
  · cases h

set_option maxRecDepth 100000 in
theorem scripts_come_to_an_end_runaway :
    ∃ p m m', parse runawayText = .ok p ∧ m.context.config.maxLoopIterations < 2 ^ 64 - 1 ∧
      Machine.run .na p m = .error (.error (.loopLimit 3)) m' ∧
      ∃ N log, (∀ n, N ≤ n → Fuel.run wordNext n .na p ⟨m, 0⟩ =
        some (log, Ending.within 0 (.error (.error (.loopLimit 3)) m'))) ∧
      InOrder 3 2 0 log := by
  let m : Machine := { heap := {}, context := { config := {
    maxLoopIterations := 3
    maxCallDepth := 2 } } }
  have h : Except.gives (fun p => Ending.stopsLoop 3 (Machine.run .na p m))
      (parse runawayText) = true := by
    refine gives_parse (toList_append_of String.toList_ofList String.toList_ofList) ?_
    decide +kernel
  obtain ⟨p, hp, h⟩ := Except.exists_of_gives h
  obtain ⟨m', hm'⟩ := Ending.exists_of_stopsLoop h
  have hlimit : m.context.config.maxLoopIterations < 2 ^ 64 - 1 := by decide
  obtain ⟨N, log, hrun, horderly, -⟩ := scripts_come_to_an_end p .na m hlimit
  rw [hm'] at hrun
  exact ⟨p, m, m', hp, hlimit, hm', N, log, hrun, horderly⟩

/-- Whether a run comes down with a history that is read while it is written. -/
def Ending.isShared {α : Type} : Ending α → Bool
  | .error .sharedWrite _ => true
  | _ => false

theorem Ending.exists_of_isShared {α : Type} {r : Ending α} (h : Ending.isShared r = true) :
    ∃ m, r = .error .sharedWrite m := by
  unfold Ending.isShared at h
  split at h
  · exact ⟨_, rfl⟩
  · cases h

/-- A history that a function assigns into its own parameter: `c => { const { close } = c.data;
const f = s => { s[0] = close; return 1 }; return f(close) }`. -/
def sharedParameterText : String :=
  "c => \x7b const \x7b close \x7d = c.data; const f = s => \x7b s[0] = close; return 1 \x7d; " ++
    "return f(close) \x7d"

set_option maxRecDepth 100000 in
/-- A script may come to neither a value nor an error. -/
theorem shared_parameter_ends_in_neither :
    ∃ p q counters m, parse sharedParameterText = .ok p ∧ p.compiled {} = .ok (q, counters) ∧
      m.context.config.maxLoopIterations < 2 ^ 64 - 1 ∧
      ∃ m', Machine.run .na q m = .error .sharedWrite m' := by
  let start : Machine := { heap := {}, context := { config := {} } }
  have h : Except.gives (fun p => Except.gives (fun r =>
      Ending.gives (fun _ m => decide (m.context.config.maxLoopIterations < 2 ^ 64 - 1) &&
        Ending.isShared (Machine.run .na r.1 m)) (beginStep (.flat 1 1) start)) (p.compiled {}))
      (parse sharedParameterText) = true := by
    refine gives_parse (toList_append_of String.toList_ofList String.toList_ofList) ?_
    decide +kernel
  obtain ⟨p, hp, h⟩ := Except.exists_of_gives h
  obtain ⟨⟨q, counters⟩, hq, h⟩ := Except.exists_of_gives h
  obtain ⟨_, m, -, h⟩ := Ending.exists_of_gives h
  obtain ⟨hlimit, h⟩ := Bool.and_eq_true_iff.1 h
  exact ⟨p, q, counters, m, hp, hq, of_decide_eq_true hlimit, Ending.exists_of_isShared h⟩

/-! ## Series do not nest -/

/-- **Series never nest.** Run any script on any candles. On every machine that the run comes
to, no history, no array and no object holds a series, so a series shows no series; and what
the script gives on a bar holds no series either, at any depth, before it is copied. -/
theorem series_never_nest (p : Program) (receiver : Json) (config : Config)
    (candles : List Candle) :
    ((Indicator.ofProgram p receiver).machine config).heap.Sound ∧
    ∃ N log, (∀ n, N ≤ n →
        Fuel.rows (· + 1) n (Indicator.ofProgram p receiver) candles
          ⟨(Indicator.ofProgram p receiver).machine config, 0⟩ =
        some (log, Ending.within 0 ((Indicator.ofProgram p receiver).rows candles
          ((Indicator.ofProgram p receiver).machine config)))) ∧
      (∀ k ∈ log, k.Meets fun m => m.heap.Sound ∧ ∀ v, ¬ (m.heap.current v).IsSeries) ∧
      ∀ m v, .gave m v ∈ log →
        ∀ u, TransGen (fun a b => b ∈ m.heap.snapshotParts a) v u → ¬ u.IsSeries := by
  have hstart := Indicator.sound_machine p receiver config
  obtain ⟨N, log, hrun, -, htells⟩ :=
    Fuel.rows_ends (Regime.sound_lax config) (fun hm => hm.2) (fun _ _ => rfl)
      (Indicator.ofProgram p receiver) candles _ hstart
  refine ⟨hstart.1, N, log, hrun, fun k hk => ?_, fun m v hgave u hu => ?_⟩
  · refine (htells.meets k hk).imp fun m hm => ⟨hm.1, hm.1.current⟩
  · have hs : m.heap.Sound := (htells.meets _ hgave).1
    cases hu with
    | single hu => exact hs.snapshotParts hu
    | tail _ hu => exact hs.snapshotParts hu

/-! ## What brings a run down -/

/-- **What may bring a run down.** Run any script on any candles. The run gives its rows, or
stops with an error of the script, unless one of two things happens. It comes down with a
history that is read while it is written exactly if a view of a history was assigned into an
element of the history itself; and it comes down with a text or a copy that has no end only on
a machine where an array or an object contains itself. -/
theorem runs_come_down_for_two_reasons (p : Program) (receiver : Json) (config : Config)
    (candles : List Candle) :
    ∃ N log, (∀ n, N ≤ n →
        Fuel.rows (· + 1) n (Indicator.ofProgram p receiver) candles
          ⟨(Indicator.ofProgram p receiver).machine config, 0⟩ =
        some (log, Ending.within 0 ((Indicator.ofProgram p receiver).rows candles
          ((Indicator.ofProgram p receiver).machine config)))) ∧
      ((∃ rows m, (Indicator.ofProgram p receiver).rows candles
          ((Indicator.ofProgram p receiver).machine config) = .ok rows m) ∨
        (∃ e m, (Indicator.ofProgram p receiver).rows candles
          ((Indicator.ofProgram p receiver).machine config) = .error (.error e) m) ∨
        (∃ m, (Indicator.ofProgram p receiver).rows candles
          ((Indicator.ofProgram p receiver).machine config) = .error .endless m ∧
          m.heap.Cyclic) ∨
        SharedIn log) ∧
      (SharedIn log ↔ ∃ m, (Indicator.ofProgram p receiver).rows candles
        ((Indicator.ofProgram p receiver).machine config) = .error .sharedWrite m) := by
  obtain ⟨N, log, hrun, -, htells⟩ :=
    Fuel.rows_ends (Regime.sound_lax config) (fun hm => hm.2) (fun _ _ => rfl)
      (Indicator.ofProgram p receiver) candles _ (Indicator.sound_machine p receiver config)
  refine ⟨N, log, hrun, ?_, htells.shared⟩
  obtain ⟨-, hending, hshared⟩ := htells
  revert hending hshared
  cases (Indicator.ofProgram p receiver).rows candles
      ((Indicator.ofProgram p receiver).machine config) with
  | ok rows m => exact fun _ _ => .inl ⟨rows, m, rfl⟩
  | error h m =>
    intro hending hshared
    cases h with
    | error e => exact .inr (.inl ⟨e, m, rfl⟩)
    | endless => exact .inr (.inr (.inl ⟨m, rfl, hending.2 rfl⟩))
    | sharedWrite => exact .inr (.inr (.inr (hshared.2 ⟨m, rfl⟩)))

/-- A history that is assigned into itself:
`c => { const { close } = c.data; close[0] = close; return 1 }`. -/
def sharedElementText : String :=
  "c => \x7b const \x7b close \x7d = c.data; close[0] = close; return 1 \x7d"

set_option maxRecDepth 100000 in
/-- A run may come down with a history that is read while it is written. -/
theorem shared_element_brings_run_down :
    ∃ p q counters, parse sharedElementText = .ok p ∧ p.compiled {} = .ok (q, counters) ∧
      ∃ m, (Indicator.ofProgram q .null).rows [.flat 1 1]
        ((Indicator.ofProgram q .null).machine {}) = .error .sharedWrite m := by
  have h : Except.gives (fun p => Except.gives (fun r =>
      Ending.isShared ((Indicator.ofProgram r.1 .null).rows [.flat 1 1]
        ((Indicator.ofProgram r.1 .null).machine {}))) (p.compiled {}))
      (parse sharedElementText) = true := by
    refine gives_parse String.toList_ofList ?_
    decide +kernel
  obtain ⟨p, hp, h⟩ := Except.exists_of_gives h
  obtain ⟨⟨q, counters⟩, hq, h⟩ := Except.exists_of_gives h
  exact ⟨p, q, counters, hp, hq, Ending.exists_of_isShared h⟩

end BarScript

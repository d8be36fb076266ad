import BarScript.Indicator.Incremental
import BarScript.Proofs.Sharing.Runs
import Mathlib.Data.List.Chain

/-!
# A run that goes on is a full run

An incremental run is handed candles as they come, skips those it has seen, and
makes its context again when a bar fails. Its state is at every moment that of
one run over the candles it has processed: the same rows, and a machine that is
that of the full run, at its places in a heap that has what failed bars left as well
(`Shared`).
-/

namespace BarScript

open Machine Correspondence List Indicator

/-! ## Bars in a used heap -/

section Shared

variable {ind : Indicator} (hfree : ind.receiver.IsFree) {g : Heap} {P : Places} {m n : Machine}

include hfree

/-- A bar in a used heap ends as the bar itself: with the same result, or with the
same error. -/
theorem bar_cases (c : Candle) (h : Shared g P m n) :
    (∃ v m' n' P', ind.bar c m = .ok v m' ∧ ind.bar c n = .ok v n' ∧ Shared g P' m' n') ∨
      ∃ e m' n', ind.bar c m = .error e m' ∧ ind.bar c n = .error e n' := by
  have hend := Sharing.bar_agree hfree c m n h
  generalize ind.bar c m = s at hend
  generalize ind.bar c n = t at hend
  cases hend with
  | ok _ hrel hv =>
    cases hv
    exact .inl ⟨_, _, _, _, rfl, rfl, hrel⟩
  | error _ => exact .inr ⟨_, _, _, rfl, rfl⟩

theorem rows_shared {cs : List Candle} {m' : Machine} {rows : List Output.Row}
    (hmn : Shared g P m n) (h : ind.rows cs m = .ok rows m') :
    ∃ n' P', ind.rows cs n = .ok rows n' ∧ Shared g P' m' n' := by
  have hend := Sharing.rows_agree hfree cs m n hmn
  rw [h] at hend
  generalize ind.rows cs n = t at hend
  cases hend with
  | ok _ hrel hv => exact ⟨_, _, by rw [hv], hrel⟩

end Shared

theorem distinct_of_bar {ind : Indicator} (h : ind.bar c m = .ok v m') (hs : m'.heap.Sound) :
    Output.Row.Distinct (c.ts, v) := by
  -- the last thing a bar does is to take a snapshot of the heap it leaves
  obtain ⟨-, m₁, -, hinvoke⟩ := Exec.bind_eq_ok h
  obtain ⟨u, m₂, -, hsnap⟩ := Exec.bind_eq_ok hinvoke
  obtain ⟨hu, rfl⟩ := Exec.heap?_eq_ok hsnap
  exact Output.distinct_of_collapsed? hs c.ts hu

/-! ## The candles that are taken -/

namespace Incremental

/-- The candles that are newer than a timestamp and than those taken before
them. -/
def newer : (last : Option Int) → List Candle → List Candle
  | _, [] => []
  | last, c :: rest =>
    if last.any fun t => decide (c.ts ≤ t) then newer last rest else c :: newer (some c.ts) rest

/-- **What a run over candles has come to**: which candles it has processed, and
the machine and the rows of a full run over them. -/
structure Progress (ind : Indicator) (config : Config) (r : Incremental)
    (rows : List Output.Row) (m : Machine) : Prop where
  sameIndicator : r.indicator = ind
  sameConfig : r.config = config
  increasing : (r.processed.toList.map Candle.ts).IsChain (· < ·)
  checkpoint : r.checkpoint = ⟨r.processed.size, r.processed.back?.map Candle.ts⟩
  run : ind.rows r.processed.toList (ind.machine config) = .ok rows m
  sound : m.heap.Sound
  distinct : ∀ row ∈ rows, row.Distinct

variable {ind : Indicator} {config : Config} {r : Incremental} {rows : List Output.Row}
  {m : Machine}

/-- The run after a candle has been processed. -/
def took (r : Incremental) (c : Candle) (machine : Machine) : Incremental :=
  { r with
    machine
    checkpoint := { bars := r.checkpoint.bars + 1, lastTs? := some c.ts }
    processed := r.processed.push c }

theorem Progress.took (h : Progress ind config r rows m) {c : Candle} {v : Snapshot}
    {m' machine : Machine} (hnew : ¬ r.isSeen c) (hbar : ind.bar c m = .ok v m')
    (hs : m'.heap.Sound) :
    Progress ind config (r.took c machine) (rows ++ [(c.ts, v)]) m' := { h with
  increasing := by
    show ((r.processed.push c).toList.map Candle.ts).IsChain (· < ·)
    rw [Array.toList_push, map_append, isChain_append]
    refine ⟨h.increasing, isChain_singleton _, fun x hx y hy => ?_⟩
    have hlast : r.lastTs? = some x := by
      rw [lastTs?, h.checkpoint, ← Array.getLast?_toList, ← getLast?_map]
      exact hx
    obtain rfl : c.ts = y := by simpa using hy
    simpa [isSeen, hlast] using hnew
  checkpoint := by simp [Incremental.took, h.checkpoint]
  run := by
    show ind.rows (r.processed.push c).toList (ind.machine config) = _
    rw [Array.toList_push, rows_concat, Exec.bind_ok h.run, Exec.bind_ok hbar]
    rfl
  sound := hs
  distinct row hrow := by
    rcases mem_append.1 hrow with hrow | hrow
    · exact h.distinct row hrow
    · rw [mem_singleton.1 hrow]
      exact distinct_of_bar hbar hs }

/-- What handing candles to a run comes to: the candles it takes, their rows,
and whether it ends with the last candle or with one that fails. -/
structure Advanced (ind : Indicator) (config : Config) (r : Incremental)
    (rows old : List Output.Row) (cs : List Candle) (out : Option Halt × Output × Incremental)
    (taken : List Candle)
    (new : List Output.Row) (m : Machine) : Prop where
  processed : out.2.2.processed.toList = r.processed.toList ++ taken
  timestamps : new.map Prod.fst = taken.map Candle.ts
  fresh : out.2.1.Shows (old ++ new)
  output : out.2.2.output = r.output
  progress : Progress ind config out.2.2 (rows ++ new) m
  ending : match out.1 with
    | none => taken = newer r.lastTs? cs ∧ ∃ g P, Shared g P m out.2.2.machine
    | some halt => ∃ before c after m', cs = before ++ c :: after ∧
      taken = newer r.lastTs? before ∧ ¬ out.2.2.isSeen c ∧ ind.bar c m = .error halt m'

theorem newer_cons_of_isSeen (h : r.isSeen c) (cs : List Candle) :
    newer r.lastTs? (c :: cs) = newer r.lastTs? cs := by
  unfold isSeen at h
  rw [newer]
  cases hlast : r.lastTs? with
  | none =>
    rw [hlast] at h
    cases h
  | some t =>
    rw [hlast] at h
    exact if_pos h

theorem newer_cons_of_not_isSeen (h : ¬ r.isSeen c) (cs : List Candle) :
    newer r.lastTs? (c :: cs) = c :: newer (some c.ts) cs := by
  unfold isSeen at h
  rw [newer]
  cases hlast : r.lastTs? with
  | none => rfl
  | some t =>
    rw [hlast] at h
    exact if_neg h

theorem advance_cons_of_isSeen (h : r.isSeen c) (fresh : Output) (cs : List Candle) :
    r.advance fresh (c :: cs) = r.advance fresh cs := by
  rw [advance, if_pos h]

theorem advance_cons_of_ok {c : Candle} (h : ¬ r.isSeen c) {v : Snapshot} {machine : Machine}
    (hbar : r.indicator.bar c r.machine = .ok v machine) (fresh : Output) (cs : List Candle) :
    r.advance fresh (c :: cs) = (r.took c machine).advance (fresh.record c.ts v) cs := by
  have hrun : (r.indicator.step c fresh).run r.machine = .ok (fresh.record c.ts v) machine := by
    rw [step_eq, ← bind_pure_comp]
    exact Exec.bind_ok hbar
  rw [advance, if_neg h, hrun]
  rfl

theorem advance_cons_of_error {c : Candle} (h : ¬ r.isSeen c) {e : Halt} {machine : Machine}
    (hbar : r.indicator.bar c r.machine = .error e machine) (fresh : Output) (cs : List Candle) :
    r.advance fresh (c :: cs) = (some e, fresh, { r with machine }) := by
  have hrun : (r.indicator.step c fresh).run r.machine = .error e machine := by
    rw [step_eq, ← bind_pure_comp]
    exact Exec.bind_error hbar
  rw [advance, if_neg h, hrun]

namespace Advanced

variable {old : List Output.Row} {cs : List Candle} {c : Candle} {taken : List Candle}
  {new : List Output.Row} {out : Option Halt × Output × Incremental}

theorem cons_of_isSeen (h : r.isSeen c) (ha : Advanced ind config r rows old cs out taken new m) :
    Advanced ind config r rows old (c :: cs) out taken new m := { ha with
  ending := by
    have hend := ha.ending
    obtain ⟨halt?, fresh, r'⟩ := out
    cases halt? with
    | none => exact ⟨hend.1.trans (newer_cons_of_isSeen h cs).symm, hend.2⟩
    | some halt =>
      obtain ⟨before, d, after, m', rfl, htaken, hrest⟩ := hend
      exact ⟨c :: before, d, after, m', rfl,
        htaken.trans (newer_cons_of_isSeen h before).symm, hrest⟩ }

theorem cons_of_took (h : ¬ r.isSeen c) {v : Snapshot} {machine : Machine}
    (ha : Advanced ind config (r.took c machine) (rows ++ [(c.ts, v)]) (old ++ [(c.ts, v)]) cs out
      taken new m) :
    Advanced ind config r rows old (c :: cs) out (c :: taken) ((c.ts, v) :: new) m where
  processed := by
    rw [ha.processed, took, Array.toList_push, append_assoc]
    rfl
  timestamps := by rw [map_cons, map_cons, ha.timestamps]
  fresh := by
    rw [append_cons]
    exact ha.fresh
  output := ha.output
  progress := by
    rw [append_cons]
    exact ha.progress
  ending := by
    have hend := ha.ending
    obtain ⟨halt?, fresh, r'⟩ := out
    cases halt? with
    | none =>
      obtain ⟨rfl, hmachine⟩ := hend
      exact ⟨(newer_cons_of_not_isSeen h cs).symm, hmachine⟩
    | some halt =>
      obtain ⟨before, d, after, m', rfl, rfl, hrest⟩ := hend
      exact ⟨c :: before, d, after, m', rfl, (newer_cons_of_not_isSeen h before).symm, hrest⟩

end Advanced

/-- **Step by step**: the run goes on as the full run does, and stops where the
full run would fail. -/
theorem advance_advanced (hfree : ind.receiver.IsFree) (cs : List Candle)
    {fresh : Output} (h : Progress ind config r rows m) (hm : Shared g P m r.machine)
    (hfresh : fresh.Shows old) :
    ∃ taken new m', Advanced ind config r rows old cs (r.advance fresh cs) taken new m' := by
  induction cs generalizing r rows old m fresh P with
  | nil =>
    refine ⟨[], [], m, ?_, rfl, ?_, rfl, ?_, rfl, g, P, hm⟩
    · rw [List.append_nil]; rfl
    · rw [List.append_nil]; exact hfresh
    · rw [List.append_nil]; exact h
  | cons c cs ih =>
    by_cases hseen : r.isSeen c
    · rw [advance_cons_of_isSeen hseen]
      obtain ⟨taken, new, m', ha⟩ := ih h hm hfresh
      exact ⟨taken, new, m', ha.cons_of_isSeen hseen⟩
    rcases bar_cases hfree c hm with ⟨v, m₁, n, P₁, hbar, hshared, hm₁⟩ | ⟨e, m₁, n, hbar, hshared⟩
    · rw [← h.sameIndicator] at hshared
      rw [advance_cons_of_ok hseen hshared]
      have hrow := distinct_of_bar hbar hm₁.sound
      obtain ⟨taken, new, m', ha⟩ := ih (h.took hseen hbar hm₁.sound) hm₁ (hfresh.record hrow)
      exact ⟨c :: taken, (c.ts, v) :: new, m', ha.cons_of_took hseen⟩
    · rw [← h.sameIndicator] at hshared
      rw [advance_cons_of_error hseen hshared]
      refine ⟨[], [], m, ?_, rfl, ?_, rfl, ?_, [], c, cs, m₁, rfl, rfl, hseen, hbar⟩
      · rw [List.append_nil]
      · rw [List.append_nil]; exact hfresh
      · rw [List.append_nil]
        exact ⟨h.sameIndicator, h.sameConfig, h.increasing, h.checkpoint, h.run, h.sound,
          h.distinct⟩

/-! ## Making the context again -/

/-- The context made again is that of the full run over the candles processed. -/
theorem Progress.rebuild (hfree : ind.receiver.IsFree) (hheap : ind.heap = {})
    (h : Progress ind config r rows m) :
    ∃ n P, r.rebuild = .ok { r with machine := n } ∧ Shared r.machine.heap P m n := by
  have hnew : Shared r.machine.heap {} (ind.machine config)
      { heap := r.machine.heap, context := { config } } := by
    rw [Indicator.machine, hheap]
    exact shared_new config _
  obtain ⟨n, P, hrows, hn⟩ := rows_shared hfree hnew h.run
  have hrun : (r.indicator.record r.processed.toList {}).run
      { heap := r.machine.heap, context := { config := r.config } } =
      .ok (({} : Output).addRows rows) n := by
    rw [h.sameIndicator, h.sameConfig, record_eq, ← bind_pure_comp]
    exact Exec.bind_ok hrows
  refine ⟨n, P, ?_, hn⟩
  unfold Incremental.rebuild
  dsimp only
  rw [hrun]

/-! ## One call -/

/-- A run that goes on, beside the full run over the candles it has processed:
the rows of both, and the machine of the full run. -/
structure Follows (ind : Indicator) (config : Config) (r : Incremental)
    (rows : List Output.Row) (m : Machine) : Prop extends Progress ind config r rows m where
  shows : r.output.Shows rows
  shared : ∃ g P, Shared g P m r.machine

theorem follows_new (hheap : ind.heap = {}) :
    Follows ind config (new ind config) [] (ind.machine config) where
  sameIndicator := rfl
  sameConfig := rfl
  increasing := isChain_nil
  checkpoint := rfl
  run := rfl
  sound := by
    rw [Indicator.machine, hheap]
    exact Heap.sound_empty
  distinct _ h := nomatch h
  shows := .empty
  shared := ⟨{}, {}, by
    rw [new, Indicator.machine, hheap]
    exact shared_new config _⟩

/-- What a call answers: the rows of the candles it took, or the error of the
candle it stopped at. -/
def Answers (ind : Indicator) (r r' : Incremental) (cs taken : List Candle)
    (new : List Output.Row) (m : Machine) : Except Halt Output → Prop
  | .ok o => o.Shows new ∧ taken = newer r.lastTs? cs
  | .error halt => ∃ before c after m', cs = before ++ c :: after ∧
    taken = newer r.lastTs? before ∧ ¬ r'.isSeen c ∧ ind.bar c m = .error halt m'

/-- **One call** takes the run from one full run to a longer one. -/
theorem Follows.applyDelta (hfree : ind.receiver.IsFree) (hheap : ind.heap = {})
    (h : Follows ind config r rows m) (cs : List Candle) :
    ∃ taken new m', Follows ind config (r.applyDelta cs).2 (rows ++ new) m' ∧
      (r.applyDelta cs).2.processed.toList = r.processed.toList ++ taken ∧
      new.map Prod.fst = taken.map Candle.ts ∧
      Answers ind r (r.applyDelta cs).2 cs taken new m' (r.applyDelta cs).1 := by
  obtain ⟨g, P, hm⟩ := h.shared
  obtain ⟨taken, new, m', ha⟩ := advance_advanced hfree cs h.toProgress hm Output.Shows.empty
  refine ⟨taken, new, m', ?_⟩
  unfold Incremental.applyDelta
  generalize r.advance {} cs = out at ha
  obtain ⟨halt?, fresh, r'⟩ := out
  have hshows : (r'.output.append fresh).Shows (rows ++ new) := by
    rw [ha.output]
    exact h.shows.append ha.fresh
  have hp := ha.progress
  have hend := ha.ending
  cases halt? with
  | none =>
    obtain ⟨htaken, hmachine⟩ := hend
    refine ⟨⟨?_, hshows, hmachine⟩, ha.processed, ha.timestamps, ha.fresh, htaken⟩
    exact ⟨hp.sameIndicator, hp.sameConfig, hp.increasing, hp.checkpoint, hp.run, hp.sound,
      hp.distinct⟩
  | some halt =>
    have hp' : Progress ind config { r' with output := r'.output.append fresh } (rows ++ new) m' :=
      ⟨hp.sameIndicator, hp.sameConfig, hp.increasing, hp.checkpoint, hp.run, hp.sound, hp.distinct⟩
    dsimp only
    obtain ⟨n, P, hrebuild, hn⟩ := hp'.rebuild hfree hheap
    rw [hrebuild]
    refine ⟨⟨?_, hshows, _, P, hn⟩, ha.processed, ha.timestamps, hend⟩
    exact ⟨hp.sameIndicator, hp.sameConfig, hp.increasing, hp.checkpoint, hp.run, hp.sound,
      hp.distinct⟩

end Incremental

/-! ## What can be seen of a run -/

/-- Whether plain data is a single value: neither a list nor an object. -/
def Json.IsScalar : Json → Prop
  | .arr _ | .obj _ => False
  | _ => True

/-- Contexts that show the same: bars begun, names of slots, what the slots held
at every bar, and the data fields. -/
structure Machine.SameState (m n : Machine) : Prop where
  steps : m.context.steps = n.context.steps
  slotNames : ∀ b, (m.context.slots b).keys = (n.context.slots b).keys
  slots : ∀ b name,
    m.heap.snapshot? (m.context.slot b name) = n.heap.snapshot? (n.context.slot b name)
  dataNames : m.context.data.keys = n.context.data.keys
  data : ∀ name,
    m.heap.snapshot? (m.context.dataSeries name) = n.heap.snapshot? (n.context.dataSeries name)

theorem sameState_of_shared (h : Shared g P m n) : n.SameState m where
  steps := h.context.steps.symm
  slotNames b := by
    cases b with
    | «let» => exact h.context.lets.keys.symm
    | const => exact h.context.consts.keys.symm
  slots b name :=
    ((Sharing.resemblance g).snapshot?_eq h ((Sharing.resemblance g).slot h b name)).symm
  dataNames := h.context.data.keys.symm
  data name :=
    ((Sharing.resemblance g).snapshot?_eq h ((Sharing.resemblance g).dataSeries h name)).symm

theorem Output.shows_addRows {o : Output} {old rows : List Row} (h : o.Shows old)
    (hrows : ∀ row ∈ rows, row.Distinct) : (o.addRows rows).Shows (old ++ rows) := by
  induction rows generalizing o old with
  | nil =>
    rw [List.append_nil]
    exact h
  | cons row rows ih =>
    rw [append_cons]
    exact ih (h.record (hrows row mem_cons_self)) fun row' h' =>
      hrows row' (mem_cons_of_mem row h')

theorem Indicator.run_of_rows {ind : Indicator} {config : Config} {cs : List Candle}
    {rows : List Output.Row} {m : Machine} {o : Output}
    (h : ind.rows cs (ind.machine config) = .ok rows m) (hrows : ∀ row ∈ rows, row.Distinct)
    (ho : o.Shows rows) : (ind.run config cs).1 = .ok (o, m) := by
  have hrun : (ind.record cs {}).run (ind.machine config) = .ok (({} : Output).addRows rows) m := by
    rw [record_eq, ← bind_pure_comp]
    exact Exec.bind_ok h
  rw [Indicator.run, hrun, (Output.shows_addRows .empty hrows).unique ho]

theorem Indicator.run_of_failing {ind : Indicator} {config : Config} {cs : List Candle}
    {c : Candle} {rows : List Output.Row} {m m' : Machine} {e : Halt}
    (h : ind.rows cs (ind.machine config) = .ok rows m) (hbar : ind.bar c m = .error e m') :
    (ind.run config (cs ++ [c])).1 = .error e := by
  have hrun : (ind.record (cs ++ [c]) {}).run (ind.machine config) = .error e m' := by
    rw [record_eq, ← bind_pure_comp]
    refine Exec.bind_error ?_
    rw [rows_concat, Exec.bind_ok h]
    exact Exec.bind_error hbar
  rw [Indicator.run, hrun]

namespace Incremental

/-- A run after candles have been handed to it call by call. -/
def after (r : Incremental) (deltas : List (List Candle)) : Incremental :=
  deltas.foldl (fun r cs => (r.applyDelta cs).2) r

/-- A run that shows what one full run over its candles shows. -/
structure IsFullRun (ind : Indicator) (config : Config) (r : Incremental) : Prop where
  increasing : (r.processed.toList.map Candle.ts).Pairwise (· < ·)
  checkpoint : r.checkpoint = ⟨r.processed.size, r.processed.back?.map Candle.ts⟩
  full : ∃ m, (ind.run config r.processed.toList).1 = .ok (r.output, m) ∧ r.machine.SameState m

/-- What a call from `r` to `r'` keeps. It takes all candles that are new, or
those before the first that fails; the rows of these are added to the output,
and if all succeeded they are the answer. A failing candle is one on which a
full run over the candles kept and this one fails, for the reason answered. -/
def Keeps (ind : Indicator) (config : Config) (r : Incremental) (cs : List Candle)
    (answer : Except Halt Output) (r' : Incremental) (kept : Output) : Prop :=
  ∃ taken, r'.processed.toList = r.processed.toList ++ taken ∧ r'.output = r.output.append kept ∧
    kept.timestamps.toList = taken.map Candle.ts ∧
    match answer with
    | .ok o => o = kept ∧ taken = newer r.lastTs? cs
    | .error halt => ∃ before c after, cs = before ++ c :: after ∧
      taken = newer r.lastTs? before ∧ ¬ r'.isSeen c ∧
      (ind.run config (r'.processed.toList ++ [c])).1 = .error halt

/-- Calls in sequence, each of which leaves a full run, and the rows that each
of them keeps. -/
inductive Calls (ind : Indicator) (config : Config) :
    Incremental → List (List Candle) → List Output → Prop
  | nil : Calls ind config r [] []
  | cons {r : Incremental} (full : IsFullRun ind config (r.applyDelta cs).2)
    (keeps : Keeps ind config r cs (r.applyDelta cs).1 (r.applyDelta cs).2 kept)
    (calls : Calls ind config (r.applyDelta cs).2 rest kepts) :
    Calls ind config r (cs :: rest) (kept :: kepts)

variable {ind : Indicator} {config : Config} {r : Incremental} {rows : List Output.Row}
  {m : Machine}

theorem Follows.isFullRun (h : Follows ind config r rows m) : IsFullRun ind config r where
  increasing := isChain_iff_pairwise.1 h.increasing
  checkpoint := h.checkpoint
  full := by
    obtain ⟨g, P, hm⟩ := h.shared
    exact ⟨m, run_of_rows h.run h.distinct h.shows, sameState_of_shared hm⟩

theorem Follows.keeps (hfree : ind.receiver.IsFree) (hheap : ind.heap = {})
    (h : Follows ind config r rows m) (cs : List Candle) :
    ∃ rows' m' kept, Follows ind config (r.applyDelta cs).2 rows' m' ∧
      Keeps ind config r cs (r.applyDelta cs).1 (r.applyDelta cs).2 kept := by
  obtain ⟨taken, new, m', hf, hprocessed, hts, hanswer⟩ := h.applyDelta hfree hheap cs
  have hkept : (({} : Output).addRows new).Shows new :=
    Output.shows_addRows .empty fun row hrow => hf.distinct row (mem_append_right rows hrow)
  refine ⟨rows ++ new, m', ({} : Output).addRows new, hf, taken, hprocessed, ?_, ?_, ?_⟩
  · exact hf.shows.unique (h.shows.append hkept)
  · rw [hkept.timestamps]
    exact hts
  · revert hanswer
    cases (r.applyDelta cs).1 with
    | ok o => exact fun ho => ⟨ho.1.unique hkept, ho.2⟩
    | error halt =>
      rintro ⟨before, c, after, m'', hcs, htaken, hnew, hbar⟩
      exact ⟨before, c, after, hcs, htaken, hnew, run_of_failing hf.run hbar⟩

/-- From one full run every sequence of calls goes through full runs, and the
rows kept add up to the output. -/
theorem Follows.calls (hfree : ind.receiver.IsFree) (hheap : ind.heap = {})
    (deltas : List (List Candle)) (h : Follows ind config r rows m) :
    ∃ kepts, Calls ind config r deltas kepts ∧
      (r.after deltas).output = kepts.foldl Output.append r.output := by
  induction deltas generalizing r rows m with
  | nil => exact ⟨[], .nil, rfl⟩
  | cons cs rest ih =>
    obtain ⟨rows', m', kept, hf, hkeeps⟩ := h.keeps hfree hheap cs
    obtain ⟨kepts, hcalls, hout⟩ := ih hf
    refine ⟨kept :: kepts, .cons hf.isFullRun hkeeps hcalls, ?_⟩
    obtain ⟨-, -, houtput, -⟩ := hkeeps
    rw [foldl_cons, ← houtput]
    exact hout

end Incremental

theorem ofProgram_of_isScalar (p : Program) {receiver : Json} (h : receiver.IsScalar) :
    (Indicator.ofProgram p receiver).receiver.IsFree ∧
      (Indicator.ofProgram p receiver).heap = {} := by
  cases receiver with
  | arr => exact h.elim
  | obj => exact h.elim
  | _ => exact ⟨trivial, rfl⟩

/-- **A run that goes on is a full run, also across failures.** Whatever candles
are handed to it, in whatever order and however many of them fail, after every
call the run shows what one run over the candles it kept shows; a call keeps the
rows of all its new candles or of those before the first failing one; and the
rows kept, call by call, make up the output. -/
theorem incremental_calls_follow_full_run (p : Program) {receiver : Json}
    (hreceiver : receiver.IsScalar) (config : Config) (deltas : List (List Candle)) :
    ∃ kepts,
      Incremental.Calls (Indicator.ofProgram p receiver) config
        (Incremental.new (Indicator.ofProgram p receiver) config) deltas kepts ∧
      ((Incremental.new (Indicator.ofProgram p receiver) config).after deltas).output =
        kepts.foldl Output.append {} := by
  obtain ⟨hfree, hheap⟩ := ofProgram_of_isScalar p hreceiver
  exact (Incremental.follows_new hheap).calls hfree hheap deltas

/-- A script that gives the close and fails on candles that close above two. -/
def lowCloses : Program :=
  let close := Expr.member (.member (.named "c") "data") "close"
  { root :=
    { name := none
      params := [⟨"c", {}⟩]
      body := .block
        [.branch (.binary .gt close (.number 2)) (.block [.ret (some (.named "oops"))]) none,
          .ret (some close)]
      style := .arrow
      pos := {} } }

/-- A sequence of calls that skips a candle in its first call, fails in its
second after one candle and goes on in its third. -/
theorem incremental_calls_follow_full_run_lowCloses :
    let start := Incremental.new (Indicator.ofProgram lowCloses .null) {}
    let deltas : List (List Candle) :=
      [[.flat 1 1, .flat 1 5], [.flat 2 2, .flat 3 3], [.flat 3 1]]
    Json.IsScalar .null ∧ (start.after deltas).processed.toList.map Candle.ts = [1, 2, 3] ∧
      ∃ kepts, Incremental.Calls (Indicator.ofProgram lowCloses .null) {} start deltas kepts ∧
        (start.after deltas).output = kepts.foldl Output.append {} :=
  ⟨trivial, by decide +kernel,
    incremental_calls_follow_full_run lowCloses (show Json.IsScalar .null from trivial) {} _⟩

end BarScript

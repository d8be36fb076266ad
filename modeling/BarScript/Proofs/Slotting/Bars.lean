import BarScript.Proofs.Parsed
import BarScript.Proofs.Slotting.Runs
import BarScript.Proofs.Stability.Bars

/-!
# Slotting keeps the meaning of flat scripts

Between two bars the histories of the candles move on in the same way on both
machines, and the slots move on beside them. On the first bar the two machines are
one. So the script and its slotted form stay in step for a whole run, and since what
a bar gives is read off values that show the same, their rows are the same.
-/

namespace BarScript

open Machine Slotted List

namespace Slotting

/-! ## Beginning a bar -/

section Begin

variable {D : Array (History Value)} {m n : Machine} {r : Ref}

theorem Near.modifyShared (hmn : Near D m n) (hr : r < D.size) {f : History Value → History Value}
    (hf : ∀ s, (∀ v ∈ s.values, ¬ v.IsSeries) → ∀ v ∈ (f s).values, ¬ v.IsSeries) :
    Near (D.modify r f) { m with heap := m.heap.modifyHistory r f }
      { n with heap := n.heap.modifyHistory r f } := { hmn with
  histories := congrArg (Array.modify · r f) hmn.histories
  shared q hq := by
    rw [Array.size_modify] at hq
    have hm : r < m.heap.histories.size := hmn.histories ▸ hr
    have hn : r < n.heap.histories.size := Nat.lt_of_lt_of_le hr hmn.size
    show (n.heap.modifyHistory r f).history q = (m.heap.modifyHistory r f).history q
    rw [Heap.history_modifyHistory, Heap.history_modifyHistory, hmn.shared q hq, hmn.shared r hr]
    simp only [hm, hn, and_true]
  size := by
    show _ ≤ (n.heap.histories.modify r f).size
    rw [Array.size_modify, Array.size_modify]
    exact hmn.size
  sound := hmn.sound.modifyHistory hf
  sound' := hmn.sound'.modifyHistory hf
  named q hq := by
    rw [Array.size_modify]
    exact hmn.named q hq
  slots k q hq := by
    show _ ≤ q ∧ q < (n.heap.histories.modify r f).size
    rw [Array.size_modify, Array.size_modify]
    exact hmn.slots k q hq }

theorem advance_held (s : History Value) (hs : ∀ v ∈ s.values, ¬ v.IsSeries) :
    ∀ v ∈ s.advance.values, ¬ v.IsSeries :=
  fun v hv => hs v (History.mem_advance hv)

theorem Near.advanceShared (hmn : Near D m n) (refs : List Ref) (hrefs : ∀ r ∈ refs, r < D.size) :
    ∃ D', D'.size = D.size ∧ Near D' { m with heap := m.heap.advanceAll refs }
      { n with heap := n.heap.advanceAll refs } := by
  induction refs generalizing D m n with
  | nil => exact ⟨D, rfl, hmn⟩
  | cons r refs ih =>
    obtain ⟨hr, hrefs⟩ := forall_mem_cons.1 hrefs
    obtain ⟨D', hsize, hmn'⟩ := ih (hmn.modifyShared hr advance_held) fun q hq => by
      rw [Array.size_modify]
      exact hrefs q hq
    exact ⟨D', hsize.trans Array.size_modify, hmn'⟩

theorem Near.advanceSlots (hmn : Near D m n) (refs : List Ref) (hrefs : ∀ r ∈ refs, D.size ≤ r) :
    Near D m { n with heap := n.heap.advanceAll refs } := by
  induction refs generalizing n with
  | nil => exact hmn
  | cons r refs ih =>
    obtain ⟨hr, hrefs⟩ := forall_mem_cons.1 hrefs
    exact ih (hmn.modifySlot hr advance_held) hrefs

theorem advanceAll_append (h : Heap) (refs refs' : List Ref) :
    h.advanceAll (refs ++ refs') = (h.advanceAll refs).advanceAll refs' :=
  foldl_append

theorem Near.advance (hmn : Near D m n) :
    ∃ D', Near D' { m with heap := m.heap.advanceAll m.context.named }
      { n with heap := n.heap.advanceAll n.context.named } := by
  have hm : m.context.named = m.context.data.values ++ m.context.params.values := by
    unfold Context.named
    rw [hmn.unslotted.1, hmn.unslotted.2]
    simp [Dict.values, Dict.empty]
  have hn : n.context.named = m.context.data.values ++
      ((n.context.lets.values ++ n.context.consts.values) ++ m.context.params.values) := by
    unfold Context.named
    rw [hmn.context]
    simp only [append_assoc]
  have hnamed := hmn.named
  rw [hm] at hnamed ⊢
  rw [hn]
  obtain ⟨hdata, hparams⟩ := forall_mem_append.1 hnamed
  obtain ⟨D₁, hsize₁, h₁⟩ := hmn.advanceShared _ hdata
  have h₂ := h₁.advanceSlots (n.context.lets.values ++ n.context.consts.values)
    fun r hr => by
      rw [hsize₁]
      rcases mem_append.1 hr with hr | hr
      · exact (hmn.slots .let r hr).1
      · exact (hmn.slots .const r hr).1
  obtain ⟨D₃, -, h₃⟩ := h₂.advanceShared m.context.params.values fun r hr => by
    rw [hsize₁]
    exact hparams r hr
  refine ⟨D₃, ?_⟩
  rw [advanceAll_append, advanceAll_append, advanceAll_append]
  exact h₃

theorem slots_count (c : Context) (k : Bucket) :
    { c with steps := c.steps + 1 }.slots k = c.slots k := by
  cases k <;> rfl

theorem Near.count (hmn : Near D m n) :
    Near D { m with context := { m.context with steps := m.context.steps + 1 } }
      { n with context := { n.context with steps := n.context.steps + 1 } } := { hmn with
  sound' := hmn.sound'
  context := congrArg (fun c : Context => { c with steps := c.steps + 1 }) hmn.context
  slots k r hr := hmn.slots k r (slots_count n.context k ▸ hr)
  apart k k' x x' r h h' :=
    hmn.apart k k' x x' r (slots_count n.context k ▸ h) (slots_count n.context k' ▸ h') }

theorem Near.setFields (hmn : Near D m n) (fields : List (String × Float))
    (hfields : ∀ p ∈ fields, m.context.data.get? p.1 ≠ none) :
    ∃ D' m' n', (fields.forM fun p => setData p.1 p.2) m = .ok () m' ∧
      (fields.forM fun p => setData p.1 p.2) n = .ok () n' ∧ Near D' m' n' := by
  induction fields generalizing D m n with
  | nil => exact ⟨D, m, n, rfl, rfl, hmn⟩
  | cons p fields ih =>
    obtain ⟨hp, hfields⟩ := forall_mem_cons.1 hfields
    obtain ⟨r, hr⟩ := Option.ne_none_iff_exists'.1 hp
    have hr' : n.context.data.get? p.1 = some r := by
      rw [hmn.context]
      exact hr
    have hlt := hmn.named r (Context.mem_named_of_data hr)
    have hset := hmn.modifyShared hlt (setCurrent_held (u := .number p.2) id)
    obtain ⟨D', m', n', hm, hn, hmn'⟩ := ih hset hfields
    exact ⟨D', m', n', (Exec.bind_ok (setData_of_get? hr p.2)).trans hm,
      (Exec.bind_ok (setData_of_get? hr' p.2)).trans hn, hmn'⟩

/-- **Beginning a bar** keeps machines near each other. -/
theorem Near.beginStep (hmn : Near D m n) (candle : Candle) :
    ∃ D' m' n', beginStep candle m = .ok () m' ∧ beginStep candle n = .ok () n' ∧
      Near D' m' n' := by
  have hsteps : n.context.steps = m.context.steps := by rw [hmn.context]
  have hset : ∀ {D m n}, Near D m n → ∃ D' m' n', countAndSet candle m = .ok () m' ∧
      countAndSet candle n = .ok () n' ∧ Near D' m' n' :=
    fun hmn => hmn.count.setFields (candleFields candle) (hmn.filled candle)
  rw [beginStep_eq, beginStep_eq, hsteps]
  split
  · obtain ⟨D', hmn'⟩ := hmn.advance
    exact hset hmn'
  · exact hset hmn

/-! ## The first bar -/

/-- A machine that no slotted script has run on. -/
structure Plain (m : Machine) : Prop where
  sound : m.heap.Sound
  unslotted : m.context.lets = .empty ∧ m.context.consts = .empty
  named : ∀ r ∈ m.context.named, r < m.heap.histories.size

theorem Plain.near (hm : Plain m) (hf : Filled m) : Near m.heap.histories m m := { hm with
  histories := rfl
  shared _ _ := rfl
  size := Nat.le_refl _
  arrays := rfl
  objects := rfl
  frames := rfl
  sound' := hm.sound
  context := rfl
  filled := hf
  slots k r hr := by
    have hempty : m.context.slots k = .empty := by
      cases k
      · exact hm.unslotted.1
      · exact hm.unslotted.2
    rw [hempty] at hr
    cases hr
  apart k _ _ _ _ h _ := by
    have hempty : m.context.slots k = .empty := by
      cases k
      · exact hm.unslotted.1
      · exact hm.unslotted.2
    rw [hempty] at h
    exact nomatch h }

/-- Setting a field gives it a history, and takes none from the others. -/
theorem Plain.setData (hm : Plain m) (name : String) (x : Float) :
    ∃ m', setData name x m = .ok () m' ∧ Plain m' ∧ m'.context.data.get? name ≠ none ∧
      ∀ other, m.context.data.get? other ≠ none → m'.context.data.get? other ≠ none := by
  have hnumber : ¬ (Value.number x).IsSeries := id
  cases hr : m.context.data.get? name with
  | some r =>
    refine ⟨_, setData_of_get? hr x,
      ⟨hm.sound.modifyHistory (setCurrent_held hnumber), hm.unslotted, fun q hq => ?_⟩, ?_,
      fun _ h => h⟩
    · show q < (m.heap.histories.modify r _).size
      rw [Array.size_modify]
      exact hm.named q hq
    · exact hr ▸ Option.some_ne_none r
  | none =>
    refine ⟨_, setData_of_none hr x, ⟨hm.sound.newHistory fun v hv => ?_, hm.unslotted,
      fun q hq => ?_⟩, ?_, fun other hother => ?_⟩
    · rw [History.values_withCurrent, mem_singleton] at hv
      exact hv ▸ hnumber
    · show q < (m.heap.histories.push _).size
      rw [Array.size_push]
      rcases (Context.names_data m.context _ name).mem q hq with rfl | hq
      · exact Nat.lt_succ_self _
      · exact Nat.lt_succ_of_lt (hm.named q hq)
    · rw [Dict.get?_insert_self]
      exact Option.some_ne_none _
    · rw [Dict.get?_insert]
      split
      · exact Option.some_ne_none _
      · exact hother

theorem Plain.setFields (hm : Plain m) (fields : List (String × Float)) :
    ∃ m', (fields.forM fun p => BarScript.Machine.setData p.1 p.2) m = .ok () m' ∧ Plain m' ∧
      (∀ p ∈ fields, m'.context.data.get? p.1 ≠ none) ∧
      ∀ other, m.context.data.get? other ≠ none → m'.context.data.get? other ≠ none := by
  induction fields generalizing m with
  | nil => exact ⟨m, rfl, hm, fun _ hp => (nomatch hp), fun _ h => h⟩
  | cons p fields ih =>
    obtain ⟨m₁, hset, hm₁, hp, hkeep⟩ := hm.setData p.1 p.2
    obtain ⟨m₂, hrest, hm₂, hfields, hkeep'⟩ := ih hm₁
    exact ⟨m₂, (Exec.bind_ok hset).trans hrest, hm₂,
      forall_mem_cons.2 ⟨hkeep' _ hp, hfields⟩, fun other h => hkeep' other (hkeep other h)⟩

/-- **The first bar** gives the fields their histories. -/
theorem Plain.beginStep (hm : Plain m) (hsteps : m.context.steps = 0) (candle : Candle) :
    ∃ m', beginStep candle m = .ok () m' ∧ Near m'.heap.histories m' m' := by
  have hcount : Plain { m with context := { m.context with steps := m.context.steps + 1 } } :=
    ⟨hm.sound, hm.unslotted, hm.named⟩
  obtain ⟨m', hset, hm', hfields, -⟩ := hcount.setFields (candleFields candle)
  refine ⟨m', ?_, hm'.near fun candle' p hp => ?_⟩
  · rw [beginStep_eq, if_neg (by rw [hsteps]; exact Nat.lt_irrefl 0)]
    exact hset
  · -- all candles have the same fields
    have hnames : (candleFields candle').map Prod.fst = (candleFields candle).map Prod.fst := rfl
    have hmem : p.1 ∈ (candleFields candle).map Prod.fst := hnames ▸ mem_map_of_mem hp
    obtain ⟨q, hq, heq⟩ := mem_map.1 hmem
    exact heq ▸ hfields q hq

end Begin

/-! ## Running a script -/

/-- A script and its slotted form, laid out. -/
structure Counterparts (c : Setting) (p q : Program) : Prop where
  params : p.root.params.map Ident.name = [c.root] ∧ q.root.params = p.root.params
  body : ∃ stmts stmts' L, p.root.body = .block stmts ∧ q.root.body = .block stmts' ∧
    LaidStmts c [[]] [(c.root, .context)] stmts stmts' L

section Scripts

variable {c : Setting} {D : Array (History Value)} {m n : Machine} {p q : Program}

theorem Near.withFrames (hmn : Near D m n) (hp : Counterparts c p q) :
    InStep c D [(m.heap.newFrame .empty).2.frames.size, m.heap.frames.size]
      [[(c.root, .context)], []] (withFrames m p) (withFrames n q) := by
  have hdict : Dict.ofList (bindParams p.root.params [.context]) =
      Dict.empty.insert c.root .context := by
    have hparams := hp.params.1
    obtain ⟨id, hid⟩ : ∃ id, p.root.params = [id] := map_eq_singleton_iff.1 hparams |>.imp
      fun _ h => h.1
    rw [hid] at hparams ⊢
    exact congrArg (Dict.empty.insert · Value.context) (List.cons.inj hparams).1
  have hlookup : ∀ x, ([(c.root, Home.context)] : Names).lookup x =
      if x = c.root then some .context else none := fun x => by
    rw [lookup_cons]
    by_cases hx : x = c.root
    · simp [hx]
    · simp [hx, beq_false_of_ne hx]
  have houter : Frames D { m with heap := (m.heap.newFrame .empty).2 }
      { n with heap := (n.heap.newFrame .empty).2 } [m.heap.frames.size] [[]] :=
    Frames.nil.newFrame hmn (fun _ => .unknown) fun _ hx => absurd rfl hx
  refine ⟨_, ?_, ?_, ?_, rfl⟩
  · unfold Machine.withFrames
    rw [hp.params.2]
    exact (hmn.newFrame .empty).newFrame _
  · unfold Machine.withFrames
    rw [hp.params.2]
    refine houter.newFrame (hmn.newFrame .empty) (fun x => ?_) fun _ _ => rfl
    rw [hdict, hlookup, Dict.get?_insert]
    by_cases hx : x = c.root
    · rw [if_pos hx, if_pos hx.symm]
      exact .context
    · rw [if_neg hx, if_neg (Ne.symm hx)]
      exact .unknown
  · exact home?_of_lookup ((hlookup c.root).trans (if_pos rfl))

/-- **A script and its slotted form run alike**, once. -/
theorem run_runs (hp : Counterparts c p q) (receiver : Value) (hmn : Near D m n) :
    Together (fun v v' m n => Shown D v v' ∧ Near D m n) (run receiver p m) (run receiver q n) := by
  obtain ⟨stmts, stmts', L, hbody, hbody', hlaid⟩ := hp.body
  obtain ⟨hs, hs'⟩ := laidStmts_stays hlaid
  have hconfig : n.context.config = m.context.config := by rw [hmn.context]
  have hsize : (n.heap.newFrame .empty).2.frames.size = (m.heap.newFrame .empty).2.frames.size := by
    show (n.heap.frames.push _).size = (m.heap.frames.push _).size
    rw [Array.size_push, Array.size_push, hmn.frames]
  rw [run_eq, run_eq, hbody, hbody', hconfig, hsize, hmn.frames]
  rw [FuncBody.run, FuncBody.run, hoist_of_stays _ hs, hoist_of_stays _ hs', pure_bind, pure_bind]
  refine (list_runs hlaid).bind (fun f f' m n hleaves => ?_) _ _ (hmn.withFrames hp)
  obtain ⟨hended, L', ⟨K, hmn⟩, -⟩ := hleaves
  cases hended with
  | next => exact .ok ⟨Visible.shown trivial, hmn.near⟩
  | ret hv => exact .ok ⟨hv, hmn.near⟩
  | breakLoop => exact .error
  | continueLoop => exact .error

/-! ## Whole runs -/

def Waiting (m n : Machine) : Prop :=
  (∃ D, Near D m n) ∨ n = m ∧ Plain m ∧ m.context.steps = 0

theorem Waiting.beginStep (hmn : Waiting m n) (candle : Candle) :
    ∃ D m' n', beginStep candle m = .ok () m' ∧ beginStep candle n = .ok () n' ∧ Near D m' n' := by
  rcases hmn with ⟨D, hmn⟩ | ⟨rfl, hm, hsteps⟩
  · exact hmn.beginStep candle
  · obtain ⟨m', hbegin, hm'⟩ := hm.beginStep hsteps candle
    exact ⟨_, m', m', hbegin, hbegin, hm'⟩

variable {ind ind' : Indicator}

/-- **One bar** of a script and of its slotted form gives the same. -/
theorem bar_runs (hp : Counterparts c ind.program ind'.program)
    (hreceiver : ind'.receiver = ind.receiver) (candle : Candle) :
    Runs Waiting (ind.bar candle) (ind'.bar candle) fun s s' m n => s' = s ∧ Waiting m n := by
  intro m n hmn
  obtain ⟨D, m', n', hm, hn, hmn'⟩ := hmn.beginStep candle
  unfold Indicator.bar Indicator.invoke
  rw [Exec.bind_ok hm, Exec.bind_ok hn, hreceiver]
  have hrun : Runs (Near D) (run ind.receiver ind.program) (run ind.receiver ind'.program)
      fun v v' m n => Shown D v v' ∧ Near D m n := fun m n hmn => run_runs hp ind.receiver hmn
  refine hrun.bind (fun v v' => runs_of fun hv => ?_) m' n' hmn'
  refine (runs_heap? (R := Eq) fun m n hmn => ?_).weaken fun _ _ _ _ h => ⟨h.1.symm, .inl ⟨D, h.2⟩⟩
  rw [hv.collapsed hmn]
  cases n.heap.collapsed? v' with
  | none => exact .none
  | some s => exact .some rfl

/-- **Whole runs** give the same rows. -/
theorem rows_runs (hp : Counterparts c ind.program ind'.program)
    (hreceiver : ind'.receiver = ind.receiver) (candles : List Candle) :
    Runs Waiting (ind.rows candles) (ind'.rows candles) fun rows rows' _ _ => rows' = rows := by
  induction candles with
  | nil => exact runs_pure fun _ _ _ => rfl
  | cons candle rest ih =>
    refine (bar_runs hp hreceiver candle).bind fun s s' => runs_of fun hs => ?_
    subst hs
    refine ih.bind fun rows rows' m n hrows => ?_
    subst hrows
    exact .ok rfl

end Scripts

/-! ## Slotting a script -/

/-- The global scope knows the context and nothing else. -/
theorem knows_global (c : Setting) (serial : Nat) :
    Knows c [{ kind := .global, serial }] [[(c.root, .context)], []] := by
  have hhome : ∀ x, home? [[(c.root, .context)], []] x =
      if x = c.root then some .context else none := fun x => by
    rw [home?_cons_cons]
    rfl
  refine ⟨(hhome c.root).trans (if_pos rfl), fun x hx => ?_, fun x b hb => ?_, ?_⟩
  · rw [hhome, if_neg hx]
    exact .unknown
  · rw [hhome] at hb
    split at hb <;> cases hb
  · exact forall_mem_singleton.2 nofun

/-- **Slotting lays flat scripts out.** -/
theorem counterparts_of_slotted {p : Program} (hp : p.isFlat = true)
    (hq : (p.stages {}).slotted = .ok (q, progress)) :
    Counterparts ⟨{}, p.rootParam⟩ p q := by
  obtain ⟨body, l, rfl, hbody, -⟩ := Naming.stages_slots hq
  have hnormal : (p.stages {}).normal = p := Program.normal_flat hp
  rw [hnormal] at hbody ⊢
  generalize (p.stages {}).met.scopes = scopes at hbody ⊢
  obtain ⟨name, id, stmts, style, pos, rfl, hflat, hnodup, hnames⟩ := Program.of_isFlat hp
  have hnew : New [[(id.name, .context)], []] (Stmt.listDeclared stmts) :=
    ⟨hnodup, fun x hx => by rw [home?_cons_cons, if_neg (hnames x hx).1]; rfl,
      fun x hx => (hnames x hx).2⟩
  cases hbody with
  | block h =>
    obtain ⟨L, -, hlaid⟩ := stmts_laid rfl h (cons_ne_nil _ _) hflat
      (knows_global ⟨{}, id.name⟩ 1) hnew
    exact ⟨⟨rfl, rfl⟩, stmts, _, L, rfl, rfl, hlaid⟩

theorem plain_machine (p : Program) (receiver : Json) (config : Config) :
    Plain ((Indicator.ofProgram p receiver).machine config) := by
  obtain ⟨-, hheap, -⟩ := Heap.ofJson_data receiver Heap.populated_empty
  exact ⟨hheap.sound, ⟨rfl, rfl⟩, fun r hr => nomatch hr⟩

end Slotting

/-- **Slotting keeps the meaning of flat scripts.** The slotted form of a flat
script gives the output of the script, or stops with its error, whatever the
receiver, the settings and the candles are. -/
theorem slotted_runs_as_flat {p q : Program} {progress : Slotted.Progress} (hp : p.isFlat = true)
    (hq : (p.stages {}).slotted = .ok (q, progress)) (receiver : Json) (config : Config)
    (candles : List Candle) :
    ((Indicator.ofProgram q receiver).run config candles).1.map Prod.fst =
      ((Indicator.ofProgram p receiver).run config candles).1.map Prod.fst := by
  have hprograms : Slotting.Counterparts ⟨{}, p.rootParam⟩ (Indicator.ofProgram p receiver).program
      (Indicator.ofProgram q receiver).program := Slotting.counterparts_of_slotted hp hq
  have hreceiver : (Indicator.ofProgram q receiver).receiver =
      (Indicator.ofProgram p receiver).receiver := rfl
  have hmachine : (Indicator.ofProgram q receiver).machine config =
      (Indicator.ofProgram p receiver).machine config := rfl
  have hends := Slotting.rows_runs hprograms hreceiver candles _ _
    (.inr ⟨hmachine, Slotting.plain_machine p receiver config, rfl⟩)
  rw [Indicator.run_outcome, Indicator.run_outcome]
  revert hends
  generalize (Indicator.ofProgram p receiver).rows candles _ = s
  generalize (Indicator.ofProgram q receiver).rows candles _ = t
  intro hends
  cases hends with
  | ok h => exact congrArg (fun rows => Except.ok (Output.addRows {} rows)) h
  | error => rfl

/-- A flat script that keeps a series in a name, declares names in branches and
loops, and leaves a loop early: `c => { const { close, open } = c.data; let last = close;
var total = 0; for (let i = 0; i < 4; i++) { if (i > 2) { break } else { const part = last - open;
total += part * i } } while (total > 100) { let half = total / 2; total = half } last = total;
return [last, close, total > 3] }`. -/
def flatText : String :=
  "c => \x7b const \x7b close, open \x7d = c.data; let last = close; var total = 0; " ++
    "for (let i = 0; i < 4; i++) \x7b if (i > 2) \x7b break \x7d else \x7b " ++
    "const part = last - open; total += part * i \x7d \x7d " ++
    "while (total > 100) \x7b let half = total / 2; total = half \x7d last = total; " ++
    "return [last, close, total > 3] \x7d"

set_option maxRecDepth 100000 in
theorem slotted_runs_as_flat_loops :
    ∃ p q progress, parse flatText = .ok p ∧ p.isFlat = true ∧
      (p.stages {}).slotted = .ok (q, progress) ∧
      ((Indicator.ofProgram q .null).run {} [.flat 1 1, .flat 2 5]).1.map Prod.fst =
        ((Indicator.ofProgram p .null).run {} [.flat 1 1, .flat 2 5]).1.map Prod.fst := by
  have h : Except.gives (fun p => p.isFlat &&
      Except.gives (fun _ => true) (p.stages {}).slotted) (parse flatText) = true := by
    refine gives_parse (toList_append_of (toList_append_of (toList_append_of (toList_append_of
      String.toList_ofList String.toList_ofList) String.toList_ofList) String.toList_ofList)
      String.toList_ofList) ?_
    decide +kernel
  obtain ⟨p, hparse, h⟩ := Except.exists_of_gives h
  obtain ⟨hflat, h⟩ := Bool.and_eq_true_iff.1 h
  obtain ⟨⟨q, progress⟩, hq, -⟩ := Except.exists_of_gives h
  exact ⟨p, q, progress, hparse, hflat, hq, slotted_runs_as_flat hflat hq .null {} _⟩

end BarScript

import BarScript.Proofs.Incremental

/-!
# One indicator driven against many contexts

An indicator may be driven against any number of contexts, in any order. The
contexts share the heap: a *fleet* is a heap with the contexts that are in use on it,
and a bar of one of them finds the heap as the bars of all the others have left it.

If the receiver refers to nothing on the heap, then no context can tell that there
are others. What it gives on each of its bars is what it would give if it were driven
alone, on a heap that nothing else has used. A receiver that is an array or an object
is shared by all contexts, and then they can tell (`counting_script_goes_on`).
-/

namespace BarScript

open Machine Correspondence Function

/-- A heap and the contexts in use on it. -/
structure Fleet where
  heap : Heap
  contexts : Nat → Context

namespace Fleet

variable {P Q : Places} {g : Heap} {m n own shared : Machine} {k : Nat} {c : Candle}
  {rest : List (Nat × Candle)} {answers : List (Nat × Answer)} {answer : Answer}

/-- What a bar gives: a snapshot, or the error of the script. -/
abbrev Answer := Except RuntimeError Snapshot

/-- A fleet of new contexts, each with its settings, on the heap of an indicator. -/
def new (ind : Indicator) (configs : Nat → Config) : Fleet where
  heap := ind.heap
  contexts k := { config := configs k }

/-- The machine that a context of the fleet is run on. -/
def machine (fleet : Fleet) (k : Nat) : Machine :=
  { heap := fleet.heap, context := fleet.contexts k }

def update (fleet : Fleet) (k : Nat) (m : Machine) : Fleet where
  heap := m.heap
  contexts j := if j = k then m.context else fleet.contexts j

/-- Drives bars, each against the context that it names. The answers are told apart
by the context; there are none if a bar takes the whole process down. -/
def drive (ind : Indicator) : List (Nat × Candle) → Fleet → Option (List (Nat × Answer))
  | [], _ => some []
  | (k, c) :: rest, fleet =>
    match ind.bar c (fleet.machine k) with
    | .ok v m => ((k, .ok v) :: ·) <$> drive ind rest (fleet.update k m)
    | .error (.error e) m => ((k, .error e) :: ·) <$> drive ind rest (fleet.update k m)
    | .error _ _ => none

/-- What belongs to one context. -/
def of {α : Type} (k : Nat) (l : List (Nat × α)) : List (Nat × α) :=
  l.filter fun p => p.1 == k

/-! ## Places that do not meet -/

/-- Places in a heap that have nothing in common. -/
structure Separate (P Q : Places) : Prop where
  histories : P.histories.Disjoint Q.histories
  arrays : P.arrays.Disjoint Q.arrays
  objects : P.objects.Disjoint Q.objects
  frames : P.frames.Disjoint Q.frames

theorem Separate.symm (h : Separate P Q) : Separate Q P :=
  ⟨h.histories.symm, h.arrays.symm, h.objects.symm, h.frames.symm⟩

theorem Separate.grow (h : Separate P Q) (hP : P.Le g P') (hQ : Shared g' Q m n) (hn : n.heap = g) :
    Separate P' Q := by
  have hdisjoint : ∀ {p p' q : List Ref} {bound : Nat}, p.Disjoint q → Grows bound p p' →
      (∀ r ∈ q, r < bound) → p'.Disjoint q := fun hpq hgrow hlt r hr hq => by
    rcases hgrow.mem hr with hr | hr
    · exact hpq hr hq
    · exact absurd (hlt r hq) (Nat.not_lt.2 hr)
  subst hn
  exact ⟨hdisjoint h.histories hP.histories fun _ => hQ.histories.lt,
    hdisjoint h.arrays hP.arrays fun _ => hQ.arrays.lt,
    hdisjoint h.objects hP.objects fun _ => hQ.objects.lt,
    hdisjoint h.frames hP.frames fun _ => hQ.frames.lt⟩

/-- What lies apart from the places that a bar may change is as it was. -/
theorem shared_of_apart (hbar : Shared g P own shared) (hQ : Shared n.heap Q m n) (hn : n.heap = g)
    (hapart : Separate Q P) :
    Shared shared.heap Q m { heap := shared.heap, context := n.context } := by
  subst hn
  refine ⟨hQ.sound, hQ.histories.transfer fun r hr => ?_, hQ.arrays.transfer fun r hr => ?_,
    hQ.objects.transfer fun r hr => ?_, hQ.frames.transfer fun r hr => ?_, hQ.context⟩
  · exact hbar.histories.outside r (hQ.histories.lt hr) (hapart.histories hr)
  · exact hbar.arrays.outside r (hQ.arrays.lt hr) (hapart.arrays hr)
  · exact hbar.objects.outside r (hQ.objects.lt hr) (hapart.objects hr)
  · exact hbar.frames.outside r (hQ.frames.lt hr) (hapart.frames hr)

/-- A machine at its places is there whatever the rest of the heap is compared with. -/
theorem shared_self (h : Shared g P m n) : Shared n.heap P m n :=
  ⟨h.sound, h.histories.transfer fun _ _ => rfl, h.arrays.transfer fun _ _ => rfl,
    h.objects.transfer fun _ _ => rfl, h.frames.transfer fun _ _ => rfl, h.context⟩

/-! ## The fleet and its machines alone -/

/-- **The invariant of a fleet**: every context has a machine that is driven alone,
and lies with it at places of its own. -/
structure Holds (fleet : Fleet) (alone : Nat → Machine) (places : Nat → Places) : Prop where
  shared : ∀ k, Shared fleet.heap (places k) (alone k) (fleet.machine k)
  apart : ∀ j k, j ≠ k → Separate (places j) (places k)

variable {ind : Indicator} {fleet : Fleet} {alone : Nat → Machine} {places : Nat → Places}

theorem holds_new (configs : Nat → Config) :
    Holds (new ind configs) (fun k => { context := { config := configs k } }) fun _ => {} where
  shared k := shared_new (configs k) _
  apart _ _ _ :=
    ⟨List.disjoint_nil_left _, List.disjoint_nil_left _, List.disjoint_nil_left _,
      List.disjoint_nil_left _⟩

/-- The fleet after a bar of one context, which has left its machine at grown
places. -/
theorem Holds.update (h : Holds fleet alone places) (hP : (places k).Le fleet.heap P)
    (hbar : Shared fleet.heap P own shared) :
    Holds (fleet.update k shared) (Function.update alone k own) (Function.update places k P) := by
  have hapart : ∀ j, j ≠ k → Separate P (places j) := fun j hj =>
    (h.apart k j (Ne.symm hj)).grow hP (h.shared j) rfl
  constructor
  · intro j
    by_cases hj : j = k
    · subst hj
      rw [update_self, update_self]
      have hself := shared_self hbar
      simpa [Fleet.update, machine] using hself
    · rw [update_of_ne hj, update_of_ne hj]
      have hkept := shared_of_apart (n := fleet.machine j) hbar (h.shared j) rfl (hapart j hj).symm
      simpa [Fleet.update, machine, hj] using hkept
  · intro i j hij
    by_cases hi : i = k
    · subst hi
      rw [update_self, update_of_ne (Ne.symm hij)]
      exact hapart j (Ne.symm hij)
    · by_cases hj : j = k
      · subst hj
        rw [update_self, update_of_ne hi]
        exact (hapart i hi).symm
      · rw [update_of_ne hi, update_of_ne hj]
        exact h.apart i j hij

/-- How a bar ends that does not take the process down. -/
inductive Ends (k : Nat) : Ending Snapshot → Answer → Machine → Prop
  | ok {v : Snapshot} {m : Machine} : Ends k (.ok v m) (.ok v) m
  | error {e : RuntimeError} {m : Machine} : Ends k (.error (.error e) m) (.error e) m

theorem drive_cons (h : drive ind ((k, c) :: rest) fleet = some answers) :
    ∃ answer m later, Ends k (ind.bar c (fleet.machine k)) answer m ∧
      drive ind rest (fleet.update k m) = some later ∧ answers = (k, answer) :: later := by
  unfold drive at h
  split at h
  · rename_i v m hbar
    obtain ⟨later, hlater, rfl⟩ := Option.map_eq_some_iff.1 h
    exact ⟨.ok v, m, later, hbar ▸ .ok, hlater, rfl⟩
  · rename_i e m hbar
    obtain ⟨later, hlater, rfl⟩ := Option.map_eq_some_iff.1 h
    exact ⟨.error e, m, later, hbar ▸ .error, hlater, rfl⟩
  · cases h

theorem drive_cons_of_ends (h : Ends k (ind.bar c (fleet.machine k)) answer m) :
    drive ind ((k, c) :: rest) fleet =
      ((k, answer) :: ·) <$> drive ind rest (fleet.update k m) := by
  rw [drive]
  generalize ind.bar c (fleet.machine k) = ending at h
  cases h with
  | ok => rfl
  | error => rfl

/-- **A bar in the fleet** gives what the machine alone gives, and keeps the
invariant. -/
theorem Holds.bar (hfree : ind.receiver.IsFree) (h : Holds fleet alone places)
    (hends : Ends k (ind.bar c (fleet.machine k)) answer shared) :
    ∃ own P, Ends k (ind.bar c (alone k)) answer own ∧
      Holds (fleet.update k shared) (Function.update alone k own) (Function.update places k P) := by
  have hagree := Sharing.bar_agree hfree c (alone k) (fleet.machine k) (h.shared k)
  generalize ind.bar c (alone k) = s at hagree
  generalize ind.bar c (fleet.machine k) = t at hagree hends
  cases hends with
  | ok =>
    cases hagree with
    | ok hP hrel hv =>
      cases hv
      exact ⟨_, _, .ok, h.update hP hrel⟩
  | error =>
    cases hagree with
    | error hrel =>
      obtain ⟨P, hP, hrel⟩ := hrel _ rfl
      exact ⟨_, P, .error, h.update hP hrel⟩

/-- **The bars of one context** among those of a fleet give what they give alone. -/
theorem Holds.drive (hfree : ind.receiver.IsFree) (k : Nat) (events : List (Nat × Candle))
    {fleet own : Fleet} {alone : Nat → Machine} {places : Nat → Places}
    (h : Holds fleet alone places) (hown : own.machine k = alone k)
    (hdrive : Fleet.drive ind events fleet = some answers) :
    Fleet.drive ind (of k events) own = some (of k answers) := by
  induction events generalizing fleet own alone places answers with
  | nil =>
    cases hdrive
    rfl
  | cons event rest ih =>
    obtain ⟨j, c⟩ := event
    obtain ⟨answer, m, later, hends, hlater, rfl⟩ := drive_cons hdrive
    obtain ⟨m', P, hends', hholds⟩ := h.bar hfree hends
    by_cases hj : j = k
    · -- a bar of the context itself, which is driven alone as well
      subst hj
      rw [← hown] at hends'
      have hself : (own.update j m').machine j = Function.update alone j m' j := by
        simp [Fleet.update, machine, update_self]
      have hrest := ih hholds hself hlater
      simp only [of, List.filter_cons, beq_self_eq_true, if_true]
      rw [drive_cons_of_ends hends']
      simp only [of] at hrest
      rw [hrest]
      rfl
    · -- a bar of another context, which changes nothing here
      have hother : own.machine k = Function.update alone j m' k := by
        rw [update_of_ne (Ne.symm hj), hown]
      have hrest := ih hholds hother hlater
      simpa [of, hj] using hrest

end Fleet

/-! ## Runs after runs -/

namespace Indicator

variable {ind : Indicator}

/-- The indicator after runs, each with its settings and candles. -/
def after (ind : Indicator) (runs : List (Config × List Candle)) : Indicator :=
  runs.foldl (fun ind r => (ind.run r.1 r.2).2) ind

/-- Runs leave something on the heap, and nothing else changes. -/
theorem after_eq (runs : List (Config × List Candle)) (ind : Indicator) :
    ∃ g, ind.after runs = { ind with heap := g } := by
  induction runs generalizing ind with
  | nil => exact ⟨ind.heap, rfl⟩
  | cons r runs ih =>
    obtain ⟨g, hg⟩ := ih (ind.run r.1 r.2).2
    refine ⟨g, hg.trans ?_⟩
    unfold run
    split <;> rfl

theorem rows_withHeap (g : Heap) (cs : List Candle) :
    ({ ind with heap := g } : Indicator).rows cs = ind.rows cs := by
  induction cs with
  | nil => rfl
  | cons c cs ih =>
    rw [rows, rows, ih]
    rfl

/-- A run on a used heap gives the output of a run on an empty one. -/
theorem run_withHeap (hfree : ind.receiver.IsFree) (hheap : ind.heap = {}) (g : Heap)
    (config : Config) (cs : List Candle) :
    (({ ind with heap := g } : Indicator).run config cs).1.map Prod.fst =
      (ind.run config cs).1.map Prod.fst := by
  rw [run_outcome, run_outcome, rows_withHeap]
  have hnew : Shared g {} (ind.machine config)
      (({ ind with heap := g } : Indicator).machine config) := by
    rw [Indicator.machine, hheap]
    exact shared_new config g
  have hagree := Sharing.rows_agree hfree cs _ _ hnew
  generalize ind.rows cs (ind.machine config) = s at hagree
  generalize ind.rows cs (({ ind with heap := g } : Indicator).machine config) = t at hagree
  cases hagree with
  | ok _ _ hrows =>
    cases hrows
    rfl
  | error _ => rfl

end Indicator

/-- **Contexts do not see each other.** An indicator whose receiver is no array and no
object may be driven against any contexts in any order, with whatever settings and
candles: each context answers its own bars as if the indicator had been driven
against nothing else. In particular a run gives the same output after any other
runs. -/
theorem contexts_do_not_interfere (p : Program) {r : Json} (hr : r.IsScalar) :
    let ind := Indicator.ofProgram p r
    (∀ (configs : Nat → Config) (events : List (Nat × Candle))
        (answers : List (Nat × Fleet.Answer)),
      Fleet.drive ind events (.new ind configs) = some answers →
        ∀ k, Fleet.drive ind (Fleet.of k events) (.new ind configs) = some (Fleet.of k answers)) ∧
    ∀ (runs : List (Config × List Candle)) (config : Config) (cs : List Candle),
      ((ind.after runs).run config cs).1.map Prod.fst = (ind.run config cs).1.map Prod.fst := by
  intro ind
  obtain ⟨hfree, hheap⟩ := ofProgram_of_isScalar p hr
  constructor
  · intro configs events answers h k
    refine (Fleet.holds_new configs).drive hfree k events ?_ h
    unfold Fleet.machine Fleet.new
    rw [hheap]
  · intro runs config cs
    obtain ⟨g, hg⟩ := ind.after_eq runs
    rw [hg]
    exact Indicator.run_withHeap hfree hheap g config cs

/-- A script that gives the close, counts its bars in a slot and fails on bars that
close above two. -/
def countingCloses : Program :=
  let slot := Expr.member (.member (.named "c") "let") "n"
  let close := Expr.member (.member (.named "c") "data") "close"
  { root :=
    { name := none
      params := [⟨"c", {}⟩]
      body := .block
        [.expr (.assign .assign slot (.binary .add (.logical .nullish slot (.number 0))
          (.number 1))),
          .branch (.binary .gt close (.number 2)) (.block [.ret (some (.named "oops"))]) none,
          .ret (some (.array [slot, close]))]
      style := .arrow
      pos := {} } }

/-- Two contexts in turns, with different settings; one of the bars fails. -/
theorem contexts_do_not_interfere_inTurns :
    let ind := Indicator.ofProgram countingCloses .null
    let configs : Nat → Config := fun k => { maxHistory := some (k + 1) }
    let events := [(0, Candle.flat 1 1), (1, .flat 1 2), (0, .flat 2 5), (1, .flat 2 1),
        (0, .flat 3 2)]
    Json.IsScalar .null ∧
      ∃ answers, Fleet.drive ind events (.new ind configs) = some answers ∧ answers.length = 5 ∧
        Fleet.drive ind (Fleet.of 0 events) (.new ind configs) = some (Fleet.of 0 answers) := by
  intro ind configs events
  have hsome : (Fleet.drive ind events (.new ind configs)).any (·.length == 5) = true := by
    decide +kernel
  obtain ⟨answers, hanswers, hlength⟩ := (Option.any_eq_true _ _).1 hsome
  exact ⟨trivial, answers, hanswers, beq_iff_eq.1 hlength,
    (contexts_do_not_interfere countingCloses (r := .null) trivial).1 configs events answers
      hanswers 0⟩

/-- A script that counts its bars in the receiver. -/
def countingReceiver : Program :=
  let count := Expr.member .this "n"
  { root :=
    { name := none
      params := [⟨"c", {}⟩]
      body := .block
        [.expr (.assign .assign count (.binary .add count (.number 1))), .ret (some count)]
      style := .arrow
      pos := {} } }

/-- **A receiver that is an object goes on from context to context**: after a bar of
one context the first bar of another does not give what it gives alone. -/
theorem counting_script_goes_on :
    let ind := Indicator.ofProgram countingReceiver (.obj [("n", .num 0)])
    let events := [(0, Candle.flat 1 1), (1, .flat 1 1)]
    ∃ answers, Fleet.drive ind events (.new ind fun _ => {}) = some answers ∧
      Fleet.drive ind (Fleet.of 1 events) (.new ind fun _ => {}) ≠ some (Fleet.of 1 answers) := by
  intro ind events
  let isTwo : Nat × Fleet.Answer → Bool
    | (_, .ok (.number x)) => x == 2
    | _ => false
  have htwo : (Fleet.drive ind events (.new ind fun _ => {})).any
      (fun answers => (Fleet.of 1 answers).any isTwo) = true := by
    decide +kernel
  have halone : (Fleet.drive ind (Fleet.of 1 events) (.new ind fun _ => {})).any
      (fun answers => answers.any isTwo) = false := by
    decide +kernel
  obtain ⟨answers, hanswers, htwo⟩ := (Option.any_eq_true _ _).1 htwo
  refine ⟨answers, hanswers, fun heq => ?_⟩
  rw [heq, Option.any_some, htwo] at halone
  exact nomatch halone

end BarScript

import BarScript.Proofs.Regime.Library
import BarScript.Proofs.Trace.Erasure

/-!
# Calls without a key

A stateful function of `ta` is refused if its last argument is no key. Nothing else is
refused for this reason, so a run that ends so has a trace that tells of the call: which
function it was, how it was written, and what it was handed.
-/

namespace BarScript

open Machine Regime

namespace Traced

variable {α β : Type}

/-- The regime in which a missing key is owed to certain functions only. -/
def keyless (P : String → Prop) : Regime.Wide :=
  .ofFailures (fun h => ∀ f, h = .error (.invalidArgument f .noCallId) → P f)
    (fun e he f hf => by
      cases hf
      exact he.elim)
    fun _ h => by cases h

abbrev Keyed (x : Exec α) : Prop :=
  (keyless fun _ => False).KeepsAny x

/-- Whether an event is a call of a stateful function without a key. -/
def IsKeyless (function : String) : Event → Prop
  | .native _ ns name _ args =>
    ns = .ta ∧ Library.keepsState name = true ∧ function = "ta." ++ name ∧
      (Library.splitKey (args.map Argument.value)).2 = none
  | _ => False

/-- A run that tells of the call if it ends for want of a key. -/
def Blames (x : Traced α) : Prop :=
  ∀ m f m', (x m).2 = .error (.error (.invalidArgument f .noCallId)) m' →
    ∃ e ∈ (x m).1, IsKeyless f e

theorem blames_watch (events : Machine → Ending α → List Event) (hx : Keyed x) :
    Blames (watch events x) := by
  intro m f m' h
  have hend := hx m trivial
  rw [show x m = _ from h] at hend
  exact (hend.2 f rfl).elim

theorem Blames.bind {f : α → Traced β} (hx : Blames x)
    (hf : ∀ a, (∃ m m', (x m).2 = .ok a m') → Blames (f a)) : Blames (x >>= f) := by
  intro m function m' h
  have hstart := hx m function
  have hreached : ∀ a m₁, (x m).2 = .ok a m₁ → Blames (f a) := fun a m₁ ha => hf a ⟨m, m₁, ha⟩
  rw [bind_apply] at h ⊢
  revert h hstart hreached
  generalize x m = t
  obtain ⟨events, ending⟩ := t
  intro h hstart hreached
  cases ending with
  | ok a m₁ =>
    obtain ⟨e, he, hkeyless⟩ := hreached a m₁ rfl m₁ function m' h
    exact ⟨e, List.mem_append_right _ he, hkeyless⟩
  | error e m₁ =>
    cases h
    exact hstart _ rfl

theorem Blames.overheard (hx : Blames x) : Blames (Traced.overheard x) := by
  intro m f m' h
  rw [overheard_events]
  refine hx m f m' ?_
  unfold Traced.overheard at h
  revert h
  generalize x m = t
  obtain ⟨events, ending⟩ := t
  intro h
  cases ending with
  | ok a m₁ => cases h
  | error e m₁ =>
    cases h
    rfl

theorem blames_contextCall (f : ContextFn) (args : List Value) : Blames (contextCall f args) := by
  cases f with
  | init => exact blames_watch _ (init_keeps _ _ trivial).any
  | param =>
    refine Blames.bind (blames_watch _ (keeps_heap fun _ _ => trivial)) fun key _ => ?_
    cases key with
    | none => exact blames_watch _ (keeps_fail trivial)
    | some key => exact blames_watch _ (param_keeps _ key trivial).any
  | precision => exact blames_watch _ (precision_keeps trivial).any

/-- A namespace function that misses its key is told of. -/
theorem blames_native (host : TracedHost) (site : Expr) (ns : Namespace) (name : String)
    (args : List Argument) : Blames (callValue host site (.native ns name) args) := by
  intro m f m' h
  have hcall := call_keeps
    (R := (keyless fun f => ns = .ta ∧ Library.keepsState name = true ∧ f = "ta." ++ name ∧
      (Library.splitKey (args.map Argument.value)).2 = none).toRegime)
    ns name (fun _ _ => trivial) (fun hns hstate hkey m _ f hf => by
      cases hf
      exact ⟨hns, hstate, rfl, hkey⟩) m trivial
  rw [show Library.call ns name (args.map Argument.value) m = _ from h] at hcall
  exact ⟨.native site ns name m args, List.mem_cons_self, hcall.2 f rfl⟩

theorem blames_any {events : Machine → Ending α → List Event} {Q : α → Prop}
    (hx : (keyless fun _ => False).Keeps Q x) : Blames (watch events x) ∧
      ∀ m a m', (watch events x m).2 = .ok a m' → True :=
  ⟨blames_watch _ hx.any, fun _ _ _ _ => trivial⟩

/-- What is told of missing keys, as a comparison of the traced run with the plain one. -/
def blaming : Tracking where
  Tracks _ P x _ := Blames x ∧ ∀ m a m', (x m).2 = .ok a m' → P a
  Held _ := True
  settings := id
  result _ hP := ⟨fun _ _ _ h => (by cases h), fun _ _ _ ha => by
    cases ha
    exact hP⟩
  bind hx hfg := by
    refine ⟨hx.1.bind fun a ha => ?_, fun m b m' hb => ?_⟩
    · obtain ⟨m, m', ha⟩ := ha
      exact (hfg a (hx.2 m a m' ha)).1
    · obtain ⟨a, m₁, ha, hb⟩ := bind_eq_ok hb
      exact (hfg a (hx.2 m a m₁ ha)).2 m₁ b m' hb
  fail he := ⟨blames_watch _ (keeps_fail he), fun _ _ _ ha => (by cases ha)⟩
  uncallable v := ⟨blames_watch _ (keeps_uncallable v),
    fun m _ _ ha => absurd ha (uncallable_ne_ok m)⟩
  stir h := by
    refine ⟨fun m f m' hend => ?_, fun m a m' ha => h.2 m a m' ha⟩
    obtain ⟨e, he, hkeyless⟩ := h.1 m f m' hend
    exact ⟨e, List.mem_cons_of_mem _ he, hkeyless⟩
  overheard h := ⟨h.1.overheard, fun m r m' hr => h.2 m r.1 m' (overheard_eq_ok hr).1⟩
  peek v hf := ⟨fun m => (hf (m.heap.current v)).1 m, fun m => (hf (m.heap.current v)).2 m⟩
  current v := blames_any (Q := fun _ => True) (keeps_heap fun _ _ => trivial)
  truthy v := blames_any (Q := fun _ => True) (keeps_heap fun _ _ => trivial)
  number v := blames_any (Q := fun _ => True) (keeps_heap fun _ _ => trivial)
  unary op v := blames_any (Q := fun _ => True) (keeps_heap fun _ _ => trivial)
  settles op v := blames_any (Q := fun _ => True) (keeps_heap fun _ _ => trivial)
  binary op l r := blames_any (keeps_binary op l r)
  readName env x := blames_any (readName_keeps env x (fun _ _ _ _ => trivial)
    fun _ _ _ _ _ h => (by cases h))
  readMember base property := blames_any (readMember_keeps base property)
  readElement base index := blames_any (readElement_keeps base index)
  writeMember base property v := blames_any (writeMember_keeps base property trivial)
  writeElement base index v := blames_any
    (writeElement_keeps base index trivial fun _ _ _ _ h => by cases h)
  bindPattern env target v := blames_any (bindPattern_keeps (fun _ _ => trivial) env target v)
  assignName env name v := blames_any (assignName_keeps (fun _ _ => trivial) env name v
    fun _ _ _ _ h => by cases h)
  openFrame env := blames_any (openFrame_keeps (fun _ _ => trivial) env)
  hoist env stmts := blames_any (hoist_keeps (fun _ _ => trivial) env stmts)
  newFrame d := blames_any (newFrame_keeps (fun _ _ => trivial) d)
  newArray vs _ := blames_any (newArray_keeps fun _ _ => trivial)
  newObject fields _ := blames_any (newObject_keeps fun _ _ => trivial)
  contextCall f host args := ⟨blames_contextCall f args, fun _ _ _ _ => trivial⟩
  native host site ns name args := ⟨blames_native host site ns name args, fun _ _ _ _ => trivial⟩
  config := blames_any (Q := fun _ => True) (keeps_context fun _ _ => trivial)
  rounds := Config.rounds_id
  depth := Config.depth_id
  beginStep candle := blames_any (beginStep_keeps candle)
  collapsed v := blames_any (keeps_collapsed v)

end Traced

end BarScript

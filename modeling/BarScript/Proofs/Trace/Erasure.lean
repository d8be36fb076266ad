import BarScript.Proofs.Trace.Tracking

/-!
# A traced run is the plain run

Erasing the trace of a traced run gives the plain run: the same result, the same
machine, the same error. Arguments of calls are carried together with what they
showed, so erasure is stated up to a map of the results.
-/

namespace BarScript

open Machine

def Ending.map {α β : Type} (p : α → β) : Ending α → Ending β
  | .ok a m => .ok (p a) m
  | .error e m => .error e m

namespace Traced

variable {α β γ δ : Type}

variable {p : α → β} {b : β} {x : Traced α} {y : Exec β} {m m' : Machine}

/-- A traced run that is a plain one up to its trace and a map of the results. -/
def Erases (p : α → β) (x : Traced α) (y : Exec β) : Prop :=
  ∀ m, y m = Ending.map p (x m).2

theorem erases_pure (h : p a = b) : Erases p (pure a) (pure b) := fun _ => h ▸ rfl

theorem erases_watch (events : Machine → Ending α → List Event) (x : Exec α) :
    Erases id (watch events x) x := fun m => by
  unfold watch
  dsimp only
  cases x m <;> rfl

theorem erases_quiet (x : Exec α) : Erases id (quiet x) x :=
  erases_watch _ x

theorem erases_reading (indices : Heap → List Nat) (x : Exec α) : Erases id (reading indices x) x :=
  erases_watch _ x

theorem erases_writing (indices : Heap → List Nat) (refs : Machine → List Ref) (x : Exec α) :
    Erases id (writing indices refs x) x :=
  erases_watch _ x

/-- The trace of a sequence is that of its parts, and its ending that of the last
part that runs. -/
theorem bind_apply (x : Traced α) (f : α → Traced β) (m : Machine) : (x >>= f) m = match x m with
      | (events, .ok a m') => (events ++ (f a m').1, (f a m').2)
      | (events, .error e m') => (events, .error e m') := rfl

/-- **Sequences** erase part by part; the second part is asked for results of the first
only. -/
theorem Erases.bind {q : γ → δ} {f : α → Traced γ} {g : β → Exec δ} (h : Erases p x y)
    (hfg : ∀ a, (∃ m m', (x m).2 = .ok a m') → Erases q (f a) (g (p a))) :
    Erases q (x >>= f) (y >>= g) := by
  intro m
  have hx := h m
  have hreached : ∀ a m', (x m).2 = .ok a m' → Erases q (f a) (g (p a)) :=
    fun a m' ha => hfg a ⟨m, m', ha⟩
  rw [bind_apply]
  revert hx hreached
  generalize x m = t
  obtain ⟨events, ending⟩ := t
  intro hx hreached
  cases ending with
  | ok a m' => exact (Exec.bind_ok hx).trans (hreached a m' rfl m')
  | error e m' => exact Exec.bind_error hx

/-- A result of a sequence is one of its second part. -/
theorem bind_eq_ok {f : α → Traced β} (h : ((x >>= f) m).2 = .ok b m') :
    ∃ a m₁, (x m).2 = .ok a m₁ ∧ (f a m₁).2 = .ok b m' := by
  rw [bind_apply] at h
  revert h
  generalize x m = t
  obtain ⟨events, ending⟩ := t
  intro h
  cases ending with
  | ok a m₁ => exact ⟨a, m₁, rfl, h⟩
  | error e m₁ => cases h

theorem contextCall_erases (f : ContextFn) (host : Host) (args : List Value) :
    Erases id (contextCall f args) (Machine.callValue host (.contextFn f) args) := by
  cases f with
  | init => exact erases_writing _ _ _
  | param =>
    refine (erases_reading _ _).bind fun key _ => ?_
    cases key with
    | none => exact erases_quiet _
    | some id => exact erases_watch _ _
  | precision => exact erases_reading _ _

theorem Erases.overheard (h : Erases p x y) : Erases (fun r => p r.1) (Traced.overheard x) y := by
  intro m
  have hx := h m
  unfold Traced.overheard
  revert hx
  generalize x m = t
  obtain ⟨events, ending⟩ := t
  intro hx
  cases ending with
  | ok a m' => exact hx
  | error e m' => exact hx

theorem overheard_eq_ok (h : (overheard x m).2 = .ok r m') :
    (x m).2 = .ok r.1 m' ∧ r.2 = touches (x m).1 := by
  unfold overheard at h
  revert h
  generalize x m = t
  obtain ⟨events, ending⟩ := t
  intro h
  cases ending with
  | ok a m₁ =>
    cases h
    exact ⟨rfl, rfl⟩
  | error e m₁ => cases h

theorem overheard_events (x : Traced α) (m : Machine) : (overheard x m).1 = (x m).1 := by
  unfold overheard
  generalize x m = t
  obtain ⟨events, ending⟩ := t
  cases ending <;> rfl

theorem uncallable_ne_ok (m : Machine) :
    ((do Exec.fail (.notCallable (← Exec.heap? fun h => h.debug? v)) : Exec Value) m) ≠
      .ok u m' := fun h => by
  obtain ⟨_, _, -, h⟩ := Exec.bind_eq_ok h
  cases h

theorem Erases.any {p : α → β} (h : Erases p x y) :
    Erases p x y ∧ ∀ m a m', (x m).2 = .ok a m' → True :=
  ⟨h, fun _ _ _ _ => trivial⟩

/-- **Erasing the trace** of a run is a comparison of the traced run with the plain
one. -/
def erasure : Tracking where
  Tracks p P x y := Erases p x y ∧ ∀ m a m', (x m).2 = .ok a m' → P a
  Held _ := True
  settings := id
  result h hP := ⟨erases_pure h, fun _ _ _ ha => by
    cases ha
    exact hP⟩
  bind hx hfg := by
    refine ⟨hx.1.bind fun a ⟨m, m', ha⟩ => (hfg a (hx.2 m a m' ha)).1, fun m b m' hb => ?_⟩
    obtain ⟨a, m₁, ha, hb⟩ := bind_eq_ok hb
    exact (hfg a (hx.2 m a m₁ ha)).2 m₁ b m' hb
  fail _ := ⟨erases_quiet _, fun _ _ _ ha => nomatch ha⟩
  uncallable v := ⟨erases_quiet _, fun m _ _ ha => absurd ha (uncallable_ne_ok m)⟩
  stir h := ⟨fun m => h.1 m, fun m a m' ha => h.2 m a m' ha⟩
  overheard h := ⟨h.1.overheard, fun m r m' hr => h.2 m r.1 m' (overheard_eq_ok hr).1⟩
  peek v hf := ⟨fun m => (hf (m.heap.current v)).1 m, fun m => (hf (m.heap.current v)).2 m⟩
  current v := (erases_reading _ _).any
  truthy v := (erases_reading _ _).any
  number v := (erases_reading _ _).any
  unary op v := (erases_reading _ _).any
  settles op v := (erases_reading _ _).any
  binary op l r := (erases_reading _ _).any
  readName env x := (erases_watch _ _).any
  readMember base property := (erases_reading _ _).any
  readElement base index := (erases_reading _ _).any
  writeMember base property v := (erases_writing _ _ _).any
  writeElement base index v := (erases_writing _ _ _).any
  bindPattern env target v := (erases_reading _ _).any
  assignName env name v := (erases_quiet _).any
  openFrame env := (erases_quiet _).any
  hoist env stmts := (erases_quiet _).any
  newFrame d := (erases_quiet _).any
  newArray vs _ := (erases_quiet _).any
  newObject fields _ := (erases_quiet _).any
  contextCall f host args := (contextCall_erases f host args).any
  native host site ns name args := (erases_watch _ _).any
  config := (erases_quiet _).any
  rounds _ := rfl
  depth _ := rfl
  beginStep candle := (erases_watch _ _).any
  collapsed v := (erases_reading _ _).any

/-- **A traced run is the plain run** up to its trace. -/
theorem rows_erases (ind : Indicator) (cs : List Candle) : Erases id (rows ind cs) (ind.rows cs) :=
  (erasure.rows ind cs).1

end Traced

end BarScript

import BarScript.Kernel.CallSite
import BarScript.Proofs.Dict

/-!
# Call sites advance once per step

A store of call sites goes through calls in any order, for any sites and steps. What a call
finds there is said here from the calls alone. Of the calls before it only those of its own
site matter, from the first one on that could build a kernel. They come in runs of one step,
and only the last call of a run that is over has been kept: the others were taken back by
the next call of their step.
-/

namespace BarScript.CallSites

open List

/-- A call: its site and step, how its kernel is built if there is none, and what is done
with it. -/
structure Call (κ : Type) where
  id : String
  step : Nat
  init : Except KernelError κ
  Result : Type
  apply : κ → Result × κ

variable {κ : Type}

namespace Call

variable (c : Call κ)

/-- The call on a store. -/
def on (s : CallSites κ) : Except KernelError (c.Result × CallSites κ) :=
  s.update c.id c.step c.init c.apply

/-- The store that a call leaves. -/
def leaves (s : CallSites κ) : CallSites κ :=
  match c.on s with
  | .ok (_, s') => s'
  | .error _ => s

/-- The kernel that a call finds at its site, or builds. -/
def finds : Option (CallSite κ) → Except KernelError κ
  | some site => .ok (start site c.step)
  | none => c.init

/-- What its site has after a call. -/
def next (site : Option (CallSite κ)) : Option (CallSite κ) :=
  match c.finds site with
  | .ok k => some ⟨c.step, k, (c.apply k).2⟩
  | .error _ => site

end Call

/-- The store after calls in order. -/
def after (calls : List (Call κ)) : CallSites κ :=
  calls.foldl (fun s c => c.leaves s) {}

/-- What a call returns after others. -/
def outcome (calls : List (Call κ)) (c : Call κ) : Except KernelError c.Result :=
  (c.on (after calls)).map Prod.fst

/-- The calls of a site, from the first one on that can build a kernel. -/
def own (d : String) (calls : List (Call κ)) : List (Call κ) :=
  (calls.filter fun c => c.id == d).dropWhile fun c => !c.init.isOk

/-- The last calls of the maximal runs of one step, but for the last run. -/
def kept : List (Call κ) → List (Call κ)
  | a :: b :: rest => if a.step = b.step then kept (b :: rest) else a :: kept (b :: rest)
  | _ => []

/-- The kernel that a call is applied to: that of the first call of its site that builds
one, advanced by the last call of every earlier run. -/
def kernel (calls : List (Call κ)) (c : Call κ) : Except KernelError κ :=
  ((own c.id (calls ++ [c])).headD c).init.map fun k =>
    (kept (own c.id (calls ++ [c]))).foldl (fun k a => (a.apply k).2) k

/-! ## One site -/

/-- A kernel that a call `a` left is advanced by the calls that are kept of it and later ones. -/
theorem finds_foldl_next (c a : Call κ) (k : κ) (calls : List (Call κ)) :
    c.finds (calls.foldl (fun site b => b.next site) (some ⟨a.step, k, (a.apply k).2⟩)) =
      .ok ((kept (a :: (calls ++ [c]))).foldl (fun k b => (b.apply k).2) k) := by
  induction calls generalizing a k with
  | nil => by_cases h : a.step = c.step <;> simp [Call.finds, start, kept, h]
  | cons b rest ih =>
    rw [foldl_cons, show b.next (some ⟨a.step, k, (a.apply k).2⟩) = some _ from rfl, ih]
    by_cases h : a.step = b.step <;> simp [start, kept, h]

/-- The calls of one site: those before the first one that builds a kernel leave nothing. -/
theorem finds_foldl_none (c : Call κ) (calls : List (Call κ)) :
    let own := (calls ++ [c]).dropWhile fun c => !c.init.isOk
    c.finds (calls.foldl (fun site b => b.next site) none) =
      (own.headD c).init.map fun k => (kept own).foldl (fun k a => (a.apply k).2) k := by
  induction calls with
  | nil => cases h : c.init <;> simp [Call.finds, Except.isOk, Except.toBool, Except.map, kept, h]
  | cons a rest ih =>
    cases h : a.init with
    | error e => simpa [Call.next, Call.finds, Except.isOk, Except.toBool, h] using ih
    | ok k =>
      rw [foldl_cons, show a.next none = some ⟨a.step, k, (a.apply k).2⟩ by
        simp [Call.next, Call.finds, h], finds_foldl_next]
      simp [Except.isOk, Except.toBool, Except.map, h]

/-! ## All sites -/

theorem on_eq (c : Call κ) (s : CallSites κ) :
    c.on s = (c.finds (s.sites.get? c.id)).map fun k =>
      ((c.apply k).1, ⟨s.sites.insert c.id ⟨c.step, k, (c.apply k).2⟩⟩) := by
  unfold Call.on update Call.finds
  cases s.sites.get? c.id with
  | none => cases c.init <;> rfl
  | some site => rfl

/-- A call leaves other sites alone. -/
theorem get?_leaves (c : Call κ) (s : CallSites κ) (d : String) :
    (c.leaves s).sites.get? d =
      if c.id == d then c.next (s.sites.get? d) else s.sites.get? d := by
  rw [Call.leaves, on_eq]
  by_cases h : c.id = d
  · subst h
    cases hk : c.finds (s.sites.get? c.id) <;>
      simp [Call.next, hk, Except.map, Dict.get?_insert_self]
  · cases c.finds (s.sites.get? c.id) <;> simp [Except.map, h, Dict.get?_insert_of_ne _ h]

/-- What a site has comes from its own calls. -/
theorem get?_foldl_leaves (d : String) (calls : List (Call κ)) (s : CallSites κ) :
    (calls.foldl (fun s c => c.leaves s) s).sites.get? d =
      (calls.filter fun c => c.id == d).foldl (fun site c => c.next site) (s.sites.get? d) := by
  induction calls generalizing s with
  | nil => rfl
  | cons c rest ih =>
    rw [foldl_cons, ih, get?_leaves, filter_cons]
    split <;> rfl

theorem finds_after (calls : List (Call κ)) (c : Call κ) :
    c.finds ((after calls).sites.get? c.id) = kernel calls c := by
  rw [after, get?_foldl_leaves, show Dict.get? _ c.id = none from Dict.get?_empty c.id,
    finds_foldl_none]
  simp [kernel, own]

theorem outcome_eq (calls : List (Call κ)) (c : Call κ) :
    outcome calls c = (kernel calls c).map fun k => (c.apply k).1 := by
  rw [outcome, ← finds_after, on_eq]
  cases c.finds _ <;> rfl

theorem outcome_eq_error_iff {calls : List (Call κ)} {c : Call κ} {e : KernelError} :
    outcome calls c = .error e ↔ (after calls).sites.get? c.id = none ∧ c.init = .error e := by
  rw [outcome, on_eq, Call.finds.eq_def]
  cases (after calls).sites.get? c.id with
  | none => cases c.init <;> simp [Except.map]
  | some site => simp [Except.map]

/-- **The kernel of a call site advances once per step.** A call is applied to the kernel of the
first call of its site that built one, advanced by the last call of every earlier run of one
step. Calls of other sites do not matter. A call fails only while its site has no kernel and
none can be built, and leaves the store as it is. Once there is a kernel, how to build one
is not looked at. -/
theorem advances_once_per_step (calls : List (Call κ)) (c : Call κ) :
    outcome calls c = (kernel calls c).map (fun k => (c.apply k).1) ∧
      (∀ others : List (Call κ),
        (others.filter fun o => o.id == c.id) = (calls.filter fun o => o.id == c.id) →
        outcome others c = outcome calls c) ∧
      (∀ e, outcome calls c = .error e ↔
        (after calls).sites.get? c.id = none ∧ c.init = .error e) ∧
      (∀ e, outcome calls c = .error e → after (calls ++ [c]) = after calls) ∧
      ((after calls).sites.get? c.id ≠ none →
        ∀ init, Call.on { c with init } (after calls) = c.on (after calls)) := by
  refine ⟨outcome_eq calls c, fun others h => ?_, fun e => outcome_eq_error_iff, fun e h => ?_,
    fun h init => ?_⟩
  · have hown : own c.id (others ++ [c]) = own c.id (calls ++ [c]) := by
      simp only [own, filter_append, h]
    rw [outcome_eq, outcome_eq, kernel, kernel, hown]
  · obtain ⟨hsite, hinit⟩ := outcome_eq_error_iff.1 h
    rw [after, foldl_concat]
    change c.leaves (after calls) = after calls
    rw [Call.leaves, on_eq, hsite, Call.finds, hinit]
    rfl
  · obtain ⟨site, hsite⟩ := Option.ne_none_iff_exists'.1 h
    simp only [on_eq, Call.finds, hsite]

/-- Two calls of one step, a call of another site between them and a failing one before: the
sum has the second value of the first step only. -/
theorem advances_once_per_step_sum :
    let add (id : String) (step x : Nat) (init : Except KernelError Nat) : Call Nat :=
      ⟨id, step, init, Nat, fun k => (k + x, k + x)⟩
    let calls := [add "a" 0 1 (.error (.invalidPeriod 0)), add "a" 1 5 (.ok 0), add "b" 1 9 (.ok 0),
      add "a" 1 7 (.ok 3)]
    outcome calls (add "a" 2 100 (.ok 1000)) = .ok (107 : Nat) := by
  intro add calls
  exact (advances_once_per_step calls (add "a" 2 100 (.ok 1000))).1.trans rfl

end BarScript.CallSites

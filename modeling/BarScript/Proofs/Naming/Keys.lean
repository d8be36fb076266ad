import BarScript.Proofs.Naming.Passes
import BarScript.Proofs.Parsed

/-!
# The keys of calls and arguments

A call into the primary namespace keeps its state from bar to bar under the key that
ends it, and the argument of a namespace function its history under the key that it is
wrapped with. So the keys of two calls must differ, and no call may be without. Both
hold for every script and under all options, wherever the call stands; the exceptions
are the constructs that are kept as they are, and those are counted.
-/

namespace BarScript

open Slotted

namespace Naming

/-- Whatever can be observed of a compilation is what its stages give. -/
theorem compiled_eq_ok {p : Program} (h : p.compiled options = .ok (q, counters)) :
    ∃ slotted progress, (p.stages options).slotted = .ok (slotted, progress) ∧
      counters.callIds = progress.scopes.callIds ∧ counters.paramIds = progress.scopes.paramIds ∧
        counters.passedThrough = progress.passedThrough := by
  obtain ⟨⟨slotted, progress⟩, hslotted, hq⟩ := Except.of_bind_eq_ok h
  have hcounters := congrArg Prod.snd (Except.ok.inj hq).symm
  exact ⟨slotted, progress, hslotted, congrArg Counters.callIds hcounters,
    congrArg Counters.paramIds hcounters, congrArg Counters.passedThrough hcounters⟩

end Naming

open Naming

/-- **The keys of calls and arguments are complete and never shared.** The slotted
script is a rendering of the script, in which a call ends in a key if and only if its
callee belongs to the primary namespace, and every argument of a namespace function is
wrapped once under a key, functions apart. The keys are, in order, the first ones there
are, as many as are counted. What is kept as it is gets no keys, and it is counted: a loop
with a pattern in its header, a pattern of a value that is not read off the context, and a
target that is neither a slot nor a counter nor a part of anything. -/
theorem call_sites_have_own_keys {p q : Program} {options : Options} {counters : Counters}
    (h : p.compiled options = .ok (q, counters)) :
    ∃ slotted progress l, (p.stages options).slotted = .ok (slotted, progress) ∧
      SlotsBody (p.stages options).met.scopes ⟨options, p.rootParam⟩ [topFrame]
        (p.stages options).normal.root.body slotted.root.body l ∧
      l.calls = (List.range counters.callIds).map callKeyAt ∧
      l.params = (List.range counters.paramIds).map paramKeyAt ∧
      l.calls.Nodup ∧ l.params.Nodup ∧ l.raw = counters.passedThrough := by
  obtain ⟨slotted, progress, hslotted, hcalls, hparams, hraw⟩ := compiled_eq_ok h
  obtain ⟨body, l, rfl, hbody, hl⟩ := stages_slots hslotted
  refine ⟨_, progress, l, hslotted, hbody, hcalls ▸ hl.calls, hparams ▸ hl.params, ?_, ?_,
    hl.raw.trans hraw.symm⟩
  · rw [hl.calls]
    exact List.nodup_range.map fun a b hab =>
      Scopes.repr_injective (String.append_right_inj _ |>.1 hab)
  · rw [hl.params]
    exact List.nodup_range.map fun a b hab =>
      Scopes.repr_injective (String.append_right_inj _ |>.1 hab)

/-- Calls in an argument, in a loop header, in a subscript and in a function:
`c => { let x = ta.cum(math.max(1, 2)); for (let i = ta.cum(1); i < 1; i++) { }
const f = (y) => ta.cum(y[ta.cum(2)]); return f(x) }`. -/
def nestedCallsText : String :=
  "c => \x7b let x = ta.cum(math.max(1, 2)); for (let i = ta.cum(1); i < 1; i++) \x7b \x7d " ++
    "const f = (y) => ta.cum(y[ta.cum(2)]); return f(x) \x7d"

set_option maxRecDepth 100000 in
theorem call_sites_have_own_keys_nested :
    ∃ p q counters, parse nestedCallsText = .ok p ∧ p.compiled {} = .ok (q, counters) ∧
      counters.callIds = 4 ∧ counters.paramIds = 6 ∧ counters.passedThrough = 0 ∧
      ∃ slotted progress l, (p.stages {}).slotted = .ok (slotted, progress) ∧
        SlotsBody (p.stages {}).met.scopes ⟨{}, p.rootParam⟩ [topFrame]
          (p.stages {}).normal.root.body slotted.root.body l ∧
        l.calls = (List.range counters.callIds).map callKeyAt ∧
        l.params = (List.range counters.paramIds).map paramKeyAt ∧
        l.calls.Nodup ∧ l.params.Nodup ∧ l.raw = counters.passedThrough := by
  have h : Except.gives (fun p => Except.gives (fun r => r.2.callIds == 4 && r.2.paramIds == 6 &&
      r.2.passedThrough == 0) (p.compiled {})) (parse nestedCallsText) = true := by
    refine gives_parse (toList_append_of String.toList_ofList String.toList_ofList) ?_
    decide +kernel
  obtain ⟨p, hparse, h⟩ := Except.exists_of_gives h
  obtain ⟨⟨q, counters⟩, hq, h⟩ := Except.exists_of_gives h
  simp only [Bool.and_eq_true, beq_iff_eq] at h
  exact ⟨p, q, counters, hparse, hq, h.1.1, h.1.2, h.2, call_sites_have_own_keys hq⟩

/-- A pattern that takes apart the result of a call:
`c => { const { a } = ta.cum(1); return a }`. -/
def keptCallText : String :=
  "c => \x7b const \x7b a \x7d = ta.cum(1); return a \x7d"

/-- Whether a statement declares a pattern with the result of a call of `ta.cum` that has
one argument, a number. -/
def Stmt.isPlainCum : Stmt → Bool
  | .decl ⟨_, [⟨_, some (.call (.member (.ident id) property) [.number _]), _⟩]⟩ =>
    id.name == "ta" && property == "cum"
  | _ => false

/-- Whether a block starts with such a statement. -/
def FuncBody.startsPlainCum : FuncBody → Bool
  | .block (s :: _) => s.isPlainCum
  | _ => false

set_option maxRecDepth 100000 in
/-- A declaration that is kept as it is keeps its calls as they are: this one is into the
primary namespace and has neither a key nor a wrapped argument. -/
theorem kept_call_has_no_key :
    ∃ p q counters, parse keptCallText = .ok p ∧
      p.compiled { unsupported := .passThrough } = .ok (q, counters) ∧
      q.root.body.startsPlainCum = true ∧ counters.callIds = 0 ∧ counters.paramIds = 0 ∧
      counters.passedThrough = 1 := by
  have h : Except.gives (fun p => Except.gives (fun r => r.1.root.body.startsPlainCum &&
      r.2.callIds == 0 && r.2.paramIds == 0 && r.2.passedThrough == 1)
      (p.compiled { unsupported := .passThrough })) (parse keptCallText) = true := by
    refine gives_parse String.toList_ofList ?_
    decide +kernel
  obtain ⟨p, hparse, h⟩ := Except.exists_of_gives h
  obtain ⟨⟨q, counters⟩, hq, h⟩ := Except.exists_of_gives h
  simp only [Bool.and_eq_true, beq_iff_eq] at h
  exact ⟨p, q, counters, hparse, hq, h.1.1.1, h.1.1.2, h.1.2, h.2⟩

end BarScript

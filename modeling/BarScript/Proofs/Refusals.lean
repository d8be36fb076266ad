import BarScript.Proofs.Locations

/-!
# What the policy decides

A script is compiled under a policy for the constructs that have no form as a slot: they are
refused, or they stay as they are. A compilation that refuses nothing goes along with one that
refuses until the first refusal, so a script without such a construct compiles to the same
artifact either way, and fails for the same reason if it fails for another one.
-/

namespace BarScript

open Slotted Naming

/-- The same options, but what has no form as a slot is refused. -/
def Options.strict (options : Options) : Options :=
  { options with unsupported := .strict }

/-- **Compiling a text**, beside compiling it so that nothing is refused. Parsing refuses
nothing. -/
theorem compile_beside (options : Options) {E : CompileError → Prop}
    (hparse : ∀ issue pos, E (.parse issue pos))
    (H : ∀ root, Refuses ⟨options, root⟩ E .any) (source : String) :
    Beside E (compile options source) (compile options.lax source) fun a =>
      options.unsupported = .strict → a.counters.passedThrough = 0 := by
  have hends := parse_located source
  unfold compile
  cases hp : parse source with
  | error e =>
    rw [hp] at hends
    cases e with
    | parse issue pos => exact ⟨hparse issue pos, .inr rfl⟩
    | _ => cases hends
  | ok p =>
    exact (compiled_beside (H p.rootParam) (FuncBody.all_any _)).bind fun _ hraw => ⟨rfl, hraw⟩

/-- A policy that refuses nothing gives no reason to refuse. -/
theorem refuses_nothing {c : Setting} (hc : c.options.unsupported = .passThrough) :
    Refuses c (fun e => e.isRefusal = false) .any where
  unresolved _ := rfl
  name h := nomatch hc.symm.trans h
  target h := nomatch hc.symm.trans h
  pattern h := nomatch hc.symm.trans h

/-- **The policies differ on refused constructs only.** What compiles where constructs are
refused compiles to the same artifact where they are not, and nothing is passed through; what
fails there without a refusal fails here with the same error; and where nothing is to be refused,
nothing is. -/
theorem policies_differ_on_refusals (options : Options) (source : String) :
    (∀ a, compile options.strict source = .ok a →
      compile options.lax source = .ok a ∧ a.counters.passedThrough = 0) ∧
    (∀ e, compile options.strict source = .error e → e.isRefusal = false →
      compile options.lax source = .error e) ∧
    ∀ e, compile options.lax source = .error e → e.isRefusal = false := by
  have hstrict : Beside (fun _ => True) (compile options.strict source)
      (compile options.lax source) fun a =>
        Policy.strict = .strict → a.counters.passedThrough = 0 :=
    compile_beside options.strict (fun _ _ => trivial) (fun _ => refuses_any _) source
  have hlax := compile_beside options.lax (E := fun e => e.isRefusal = false)
    (fun _ _ => rfl) (fun _ => refuses_nothing rfl) source
  refine ⟨fun a h => ?_, fun e h hrefusal => ?_, fun e h => (hlax.of_eq_error h).1⟩
  · rw [h] at hstrict
    exact ⟨hstrict.1, hstrict.2 rfl⟩
  · refine (hstrict.of_eq_error h).2.resolve_left ?_
    rw [hrefusal]
    exact Bool.false_ne_true

end BarScript

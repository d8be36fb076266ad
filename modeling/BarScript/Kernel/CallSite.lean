import BarScript.Kernel.Average
import BarScript.Dict

/-!
# State per call site

A stateful function keeps one kernel per place it is called from. Within one
step a place may be reached more than once; every call of that step starts
again from the state before the step, so the kernel advances once per step,
with the last value it was given.
-/

namespace BarScript

/-- The kernel of one call site. -/
structure CallSite (κ : Type u) where
  /-- The step of the last call. -/
  step : Nat
  /-- The kernel before that step. -/
  before : κ
  /-- The kernel after the last call. -/
  after : κ

/-- The kernels of all call sites, by their identifiers. -/
structure CallSites (κ : Type u) where
  /-- The sites that have a kernel. -/
  sites : Dict (CallSite κ) := .empty

namespace CallSites

variable {κ : Type u} {ρ : Type v}

def size (s : CallSites κ) : Nat :=
  s.sites.entries.length

/-- The kernel that a call in `step` starts from. -/
def start (site : CallSite κ) (step : Nat) : κ :=
  if site.step = step then site.before else site.after

/-- One call: the kernel is built on the first one, and a kernel that cannot be
built leaves no trace. -/
def update (s : CallSites κ) (id : String) (step : Nat) (init : Except KernelError κ)
    (apply : κ → ρ × κ) : Except KernelError (ρ × CallSites κ) :=
  let from? : Except KernelError κ :=
    match s.sites.get? id with
    | some site => .ok (start site step)
    | none => init
  match from? with
  | .error e => .error e
  | .ok k =>
    let (r, after) := apply k
    .ok (r, ⟨s.sites.insert id ⟨step, k, after⟩⟩)

end CallSites

end BarScript

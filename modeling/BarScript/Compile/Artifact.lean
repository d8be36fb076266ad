import BarScript.Compile.Equality
import BarScript.Compile.Normal
import BarScript.Compile.Slotted
import BarScript.Json.Reader
import BarScript.Script.Parser
import BarScript.Script.Printer

/-!
# Artifacts

Compiling a script gives an artifact: the text of the slotted script, which can
be stored and bound again elsewhere, and what was counted on the way. A stored
artifact is read back strictly: a field that is known may not repeat, and the
counters are all there or none is.
-/

namespace BarScript

/-- What was counted in a compilation. -/
structure Counters where
  scopes : Nat := 0
  slots : Nat := 0
  contextBound : Nat := 0
  hoistedFunctions : Nat := 0
  expandedPatterns : Nat := 0
  callIds : Nat := 0
  paramIds : Nat := 0
  equalityCalls : Nat := 0
  passedThrough : Nat := 0
deriving Repr, DecidableEq

/-- A compiled script. -/
structure Artifact where
  source : String
  rootParam : String
  counters : Counters := {}
deriving Repr, DecidableEq

/-- The stages of a compilation up to the slotted script, each with what it
counted. -/
structure Stages where
  normal : Program
  met : NormalForm.Progress
  slotted : Except CompileError (Program × Slotted.Progress)

/-- The passes up to the slots. -/
def Program.stages (p : Program) (options : Options) : Stages :=
  let (normal, met) := p.normal {}
  { normal, met, slotted := normal.slotted options met.scopes }

/-- Compiles the tree of a script to the tree of the slotted script without
equality operators, and counts. -/
def Program.compiled (p : Program) (options : Options) :
    Except CompileError (Program × Counters) := do
  let stages := p.stages options
  let (slotted, progress) ← stages.slotted
  let (result, outcome) := slotted.tolerant p.rootParam
  let scopes := progress.scopes
  return (result, {
    scopes := scopes.entered.length
    slots := scopes.bindings
    contextBound := stages.met.contextBound
    hoistedFunctions := stages.met.hoisted
    expandedPatterns := stages.met.expanded
    callIds := scopes.callIds
    paramIds := scopes.paramIds
    equalityCalls := outcome.count
    passedThrough := progress.passedThrough })

/-- Reads a script, compiles it and prints the result. -/
def compile (options : Options) (source : String) : Except CompileError Artifact := do
  let p ← parse source
  let (result, counters) ← p.compiled options
  return { source := result.text, rootParam := p.rootParam, counters }

def Artifact.program (a : Artifact) : Except CompileError Program :=
  parse a.source

/-! ## Reading stored artifacts -/

namespace Counters

def keys : List String :=
  ["scopes", "slots", "context_bound", "hoisted_functions", "expanded_patterns", "call_ids",
    "param_ids", "equality_rewrites", "passed_through"]

def ofList? : List Nat → Option Counters
  | [scopes, slots, contextBound, hoistedFunctions, expandedPatterns, callIds, paramIds,
      equalityCalls, passedThrough] =>
    some { scopes, slots, contextBound, hoistedFunctions, expandedPatterns, callIds, paramIds,
           equalityCalls, passedThrough }
  | _ => none

def toList (c : Counters) : List Nat :=
  [c.scopes, c.slots, c.contextBound, c.hoistedFunctions, c.expandedPatterns, c.callIds,
    c.paramIds, c.equalityCalls, c.passedThrough]

def count? : Json → Option Nat
  | .int n => if 0 ≤ n then some n.toNat else none
  | _ => none

def ofJson? : Json → Option Counters
  | .obj fields => do
    let values ← keys.mapM fun k =>
      match Json.fieldValues fields k with
      | [j] => count? j
      | _ => none
    ofList? values
  | .arr items => do ofList? (← items.mapM count?)
  | _ => none

end Counters

namespace Artifact

/-- An artifact by key or by place. The counters may be missing. -/
def ofJson? : Json → Option Artifact
  | .obj fields =>
    match Json.fieldValues fields "source", Json.fieldValues fields "root_param",
        Json.fieldValues fields "stats" with
    | [.str source], [.str rootParam], [] => some { source, rootParam }
    | [.str source], [.str rootParam], [stats] =>
      (Counters.ofJson? stats).map fun counters => { source, rootParam, counters }
    | _, _, _ => none
  | .arr [.str source, .str rootParam] => some { source, rootParam }
  | .arr [.str source, .str rootParam, stats] =>
    (Counters.ofJson? stats).map fun counters => { source, rootParam, counters }
  | _ => none

def read? (s : String) : Option Artifact :=
  (Json.read? (s.length + 1) s).bind ofJson?

end Artifact

end BarScript

import BarScript.Compile.Scope

/-!
# Values

The values of a running script. Arrays, objects and histories are shared: a
value names them by a reference, and the heap holds what they contain. So a
value is never deeper than one step, and two arrays are the same array exactly
if their references are equal.
-/

namespace BarScript

/-- The groups of functions that the context supplies, and its data. -/
inductive Namespace where
  | ta
  | math
  | array
  | core
  | data
deriving Repr, DecidableEq

namespace Namespace

def name : Namespace → String
  | ta => "ta"
  | math => "math"
  | array => "array"
  | core => "core"
  | data => "data"

def ofName? : String → Option Namespace
  | "ta" => some ta
  | "math" => some math
  | "array" => some array
  | "core" => some core
  | "data" => some data
  | _ => none

end Namespace

/-- The functions of the context itself. -/
inductive ContextFn where
  | init
  | param
  | precision
deriving Repr, DecidableEq

/-- How messages name a function of the context. -/
def ContextFn.label : ContextFn → String
  | init => "Init"
  | param => "Param"
  | precision => "Precision"

/-- The place of something shared in its part of the heap. -/
abbrev Ref := Nat

/-- The frames that a piece of script can see, innermost first. -/
abbrev Env := List Ref

/-- A value. -/
inductive Value where
  /-- No value: `null`, `undefined` and `na` alike. -/
  | na
  | number (x : Float)
  | bool (b : Bool)
  | str (s : String)
  | array (r : Ref)
  | object (r : Ref)
  /-- A view of a history, shifted into the past. -/
  | series (r : Ref) (offset : Nat)
  /-- A function with the frames it was made in. -/
  | func (f : Func) (env : Env)
  /-- A function of a namespace. -/
  | native (ns : Namespace) (name : String)
  /-- A namespace. -/
  | group (ns : Namespace)
  /-- The context. -/
  | context
  /-- The slots of a bucket. -/
  | bucket (b : Bucket)
  /-- A function of the context. -/
  | contextFn (f : ContextFn)

namespace Value

instance : Inhabited Value := ⟨na⟩

def kind : Value → String
  | na => "na"
  | number _ => "number"
  | bool _ => "bool"
  | str _ => "string"
  | array _ => "array"
  | object _ => "object"
  | series _ _ => "series"
  | func _ _ | native _ _ | contextFn _ => "function"
  | group _ => "namespace"
  | context => "context"
  | bucket _ => "bucket"

end Value

end BarScript

import BarScript.Kernel.Average
import BarScript.Script.Outline

/-!
# Why a step fails

A step of a script ends in a value or in one of these errors. Beside them there
are two ways to come to no end at all, kept apart as `Halt`.
-/

namespace BarScript

/-- The greatest length of an array, a window or a look back that a script may
ask for. -/
def maxLength : Nat := 1048576

/-- What is wrong with an argument. -/
inductive ArgumentIssue where
  | badLength (x : Float)
  | lengthLimit (x : Float)
  | noCallId
  | noParamId
  | notAnArray (kind : String)
  | outOfBounds (x : Float) (size : Nat)

def ArgumentIssue.message : ArgumentIssue → String
  | badLength x => "length must be a non-negative number, got " ++ Number.Layout.message.text x
  | lengthLimit x =>
    "length " ++ Number.Layout.message.text x ++ " exceeds the limit of " ++ Nat.repr maxLength
  | noCallId => "missing call-site id"
  | noParamId => "missing argument id"
  | notAnArray kind => "expected an array, got " ++ kind
  | outOfBounds x size =>
    "index " ++ Number.Layout.message.text x ++ " out of bounds for size " ++ Nat.repr size

/-- What is wrong with the target of an assignment. -/
inductive TargetIssue where
  | setField (property kind : String)
  | indexLimit (x : Float)
  | indexInto (kind : String)
  /-- The expression is no place at all. -/
  | noPlace (e : Expr)

def TargetIssue.message : TargetIssue → String
  | setField property kind => "cannot set `" ++ property ++ "` on " ++ kind
  | indexLimit x =>
    "array index " ++ Number.Layout.message.text x ++ " exceeds the limit of " ++
      Nat.repr maxLength ++ " elements"
  | indexInto kind => "cannot index-assign into " ++ kind
  | noPlace e => e.outline

/-- Why a step fails. -/
inductive RuntimeError where
  | unknownIdentifier (name : String)
  | unknownFunction (ns name : String)
  /-- The value that was called, as text. -/
  | notCallable (text : String)
  | invalidArgument (function : String) (issue : ArgumentIssue)
  | invalidTarget (issue : TargetIssue)
  | loopLimit (limit : Nat)
  | callDepth (limit : Nat)
  /-- A jump that no loop catches, by its word. -/
  | strayJump (word : String)
  | kernel (e : KernelError)

def RuntimeError.message : RuntimeError → String
  | unknownIdentifier name => "unknown identifier `" ++ name ++ "`"
  | unknownFunction ns name => "unknown function `" ++ ns ++ "." ++ name ++ "`"
  | notCallable text => "value is not callable: " ++ text
  | invalidArgument function issue =>
    "invalid argument for `" ++ function ++ "`: " ++ issue.message
  | invalidTarget issue => "invalid assignment target: " ++ issue.message
  | loopLimit limit => "loop exceeded " ++ Nat.repr limit ++ " iterations"
  | callDepth limit => "call depth exceeded " ++ Nat.repr limit
  | strayJump word => "`" ++ word ++ "` outside of a loop"
  | kernel e => e.message

/-- How the work on a step stops short. -/
inductive Halt where
  | error (e : RuntimeError)
  /-- A history was to be read while it was being written: a series was
  assigned into the history that it shows. -/
  | sharedWrite
  /-- A text or copy was asked of a value that contains itself. -/
  | endless

end BarScript

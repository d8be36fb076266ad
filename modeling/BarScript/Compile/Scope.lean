import BarScript.Script.Error
import BarScript.Script.Tree

/-!
# Scopes

What the names of a script stand for while it is compiled. A declared name
lives in a slot, and a slot is named after the scope that declares it: the kind
of the scope, its number among the scopes of that kind, and the name. A scope
is numbered when it is entered, so two scopes never give the same slot to a
name, however they are nested and whatever the names look like.

A use of a name is settled by the innermost scope that knows it, and only then
by what holds for the whole script: the context itself, the names read off it,
and the functions.
-/

namespace BarScript

/-- The kinds of scope. -/
inductive ScopeKind where
  | global
  | branch
  | otherwise
  | forLoop
  | whileLoop
  | function
deriving Repr, DecidableEq

/-- How the names of slots begin in a kind of scope. -/
def ScopeKind.mark : ScopeKind → String
  | global => "glb"
  | branch => "if"
  | otherwise => "els"
  | forLoop => "for"
  | whileLoop => "whl"
  | function => "fn"

/-- Where slots are kept: names that may be assigned again, and names that may
not. -/
inductive Bucket where
  | let
  | const
deriving Repr, DecidableEq

namespace Bucket

def name : Bucket → String
  | .let => "let"
  | .const => "const"

def ofName? : String → Option Bucket
  | "let" => some .let
  | "const" => some .const
  | _ => none

end Bucket

/-- The bucket that a kind of declaration fills. -/
def DeclKind.bucket : DeclKind → Bucket
  | .const => .const
  | .let | .var => .let

/-- A declared name and its slot. -/
structure Binding where
  name : String
  slot : String
  bucket : Bucket
  scope : ScopeKind
  /-- The number of the scope among the scopes of its kind. -/
  serial : Nat
deriving Repr, DecidableEq

/-- What a use of a name refers to. -/
inductive Resolution where
  /-- A declared name, kept in a slot. -/
  | slot (b : Binding)
  /-- A variable of a loop header, read as it is. -/
  | loop
  /-- A name that the context or a caller supplies. -/
  | contextBound
  /-- The context itself. -/
  | root
  /-- A declared function. -/
  | function
deriving Repr, DecidableEq

/-- One scope: the names it declares, newest first, those it is handed, and the
variables of its loop header. -/
structure Frame where
  kind : ScopeKind
  serial : Nat
  vars : List (String × Binding) := []
  bound : List String := []
  loopVars : List String := []

def Frame.resolve? (f : Frame) (name : String) : Option Resolution :=
  if f.loopVars.contains name then some .loop
  else if f.bound.contains name then some .contextBound
  else (f.vars.lookup name).map .slot

/-- The scopes of one compilation, with all that is handed out in it. -/
structure Scopes where
  /-- The open scopes, innermost first. -/
  frames : List Frame := []
  /-- The kind of every scope ever entered. -/
  entered : List ScopeKind := []
  /-- The names read off the context in the body of the script. -/
  contextNames : List String := []
  root? : Option String := none
  functions : List String := []
  /-- The names bound by place in a tuple. -/
  elements : List String := []
  /-- The temporaries handed out. -/
  temps : List String := []
  /-- The names that the script writes itself. -/
  reserved : List String := []
  callIds : Nat := 0
  paramIds : Nat := 0
  nextTemp : Nat := 0
  bindings : Nat := 0

namespace Scopes

/-! ## Entering and leaving -/

/-- Enters a scope, numbered after those of its kind entered before. -/
def push (s : Scopes) (kind : ScopeKind) : Nat × Scopes :=
  let serial := s.entered.count kind + 1
  (serial, { s with frames := { kind, serial } :: s.frames, entered := kind :: s.entered })

def pop (s : Scopes) : Scopes :=
  { s with frames := s.frames.tail }

def inFunction (s : Scopes) : Bool :=
  s.frames.any fun f => f.kind == .function

/-- Changes the innermost scope, if there is one. -/
def mapInner (s : Scopes) (g : Frame → Frame) : Scopes :=
  match s.frames with
  | [] => s
  | f :: rest => { s with frames := g f :: rest }

/-! ## Names -/

/-- The slot of a name, such as `glb1_x` for a global `x`. -/
def slotName (kind : ScopeKind) (serial : Nat) (name : String) : String :=
  kind.mark ++ Nat.repr serial ++ "_" ++ name

/-- Declares a name in the innermost scope. Outside of all scopes the global
scope of number zero stands in. -/
def declare (s : Scopes) (name : String) (bucket : Bucket) : Binding × Scopes :=
  let (scope, serial) : ScopeKind × Nat := match s.frames with
    | [] => (.global, 0)
    | f :: _ => (f.kind, f.serial)
  let b : Binding := { name, slot := slotName scope serial name, bucket, scope, serial }
  (b, { s.mapInner (fun f => { f with vars := (name, b) :: f.vars }) with
    bindings := s.bindings + 1 })

def isRoot (s : Scopes) (name : String) : Bool :=
  s.root? == some name

def root (s : Scopes) : String :=
  s.root?.getD "context"

/-- What a name refers to: the innermost scope that knows it decides, then the
script as a whole. -/
def resolve? (s : Scopes) (name : String) : Option Resolution :=
  match s.frames.findSome? fun f => f.resolve? name with
  | some r => some r
  | none =>
    if s.isRoot name then some .root
    else if s.contextNames.contains name then some .contextBound
    else if s.functions.contains name then some .function
    else none

/-- What a name used at a position refers to. -/
def resolve (s : Scopes) (name : String) (pos : Position) : Except CompileError Resolution :=
  match s.resolve? name with
  | some r => .ok r
  | none => .error (.unresolved name pos)

def binding (s : Scopes) (name : String) (pos : Position) : Except CompileError Binding :=
  match s.resolve? name with
  | some (.slot b) => .ok b
  | _ => .error (.unresolved name pos)

def setRoot (s : Scopes) (name : String) : Scopes :=
  { s with root? := some name }

/-- Adds a name that the context supplies throughout the script. -/
def bindGlobally (s : Scopes) (name : String) : Scopes :=
  { s with contextNames := s.contextNames.insert name }

/-- Adds a name that is handed to the innermost scope, or to the whole script
outside of all scopes. -/
def bind (s : Scopes) (name : String) : Scopes :=
  match s.frames with
  | [] => s.bindGlobally name
  | _ => s.mapInner fun f => { f with bound := f.bound.insert name }

/-- Adds a variable of the loop header of the innermost scope. -/
def addLoopVar (s : Scopes) (name : String) : Scopes :=
  s.mapInner fun f => { f with loopVars := f.loopVars.insert name }

def addFunction (s : Scopes) (name : String) : Scopes :=
  { s with functions := s.functions.insert name }

def addElement (s : Scopes) (name : String) : Scopes :=
  { s with elements := s.elements.insert name }

/-- Whether a name is supplied by the context, or is the context. -/
def isContextBound (s : Scopes) (name : String) : Bool :=
  match s.resolve? name with
  | some .contextBound | some .root => true
  | _ => false

/-- Whether a name is a variable of a loop header. -/
def isLoopVar (s : Scopes) (name : String) : Bool :=
  s.resolve? name == some .loop

def isFunction (s : Scopes) (name : String) : Bool :=
  s.functions.contains name

/-- Whether a name is bound by place in a tuple. -/
def isElement (s : Scopes) (name : String) : Bool :=
  s.elements.contains name

def isTemp (s : Scopes) (name : String) : Bool :=
  s.temps.contains name

/-! ## What is handed out -/

def callId (s : Scopes) : String × Scopes :=
  ("_ta" ++ Nat.repr s.callIds, { s with callIds := s.callIds + 1 })

def paramId (s : Scopes) : String × Scopes :=
  ("p" ++ Nat.repr s.paramIds, { s with paramIds := s.paramIds + 1 })

/-- Keeps names from being handed out as temporaries. -/
def reserve (s : Scopes) (names : List String) : Scopes :=
  { s with reserved := names.foldl (fun r n => r.insert n) s.reserved }

def tempName (n : Nat) : String :=
  "_tmp" ++ Nat.repr n

/-- The number of the first temporary from `n` on whose name is free. Of one
more candidates than there are taken names one is free. -/
def freeTemp (taken : List String) (n : Nat) : Nat :=
  ((List.range' n (taken.length + 1)).find? fun i => !taken.contains (tempName i)).getD n

/-- The next temporary whose name the script does not write. -/
def temp (s : Scopes) : String × Scopes :=
  let i := freeTemp s.reserved s.nextTemp
  (tempName i, { s with nextTemp := i + 1, temps := s.temps.insert (tempName i) })

end Scopes

end BarScript

import BarScript.Compile.Slotted
import BarScript.Proofs.Gives
import BarScript.Proofs.Passes.Normal

/-!
# The parts of slotting

Slotting an initial value, a declarator, an argument of a namespace call or the header of
a loop is said here as a computation of its own, so that it can be followed by itself.
-/

namespace BarScript

/-- An expression that neither writes nor stands for a number, a name, a field or a
function by itself. -/
def Expr.IsPlain : Expr → Prop
  | .number _ | .ident _ | .member _ _ | .assign _ _ _ | .update _ _ _ | .func _ => False
  | _ => True

namespace Slotted

/-- The fields that compiled scripts have of the context. -/
def contextFields : List String :=
  ["const", "let", "init", "param", "precision"]

theorem bucket_mem_contextFields (b : Bucket) : b.name ∈ contextFields := by
  cases b <;> decide

end Slotted

open Slotted

/-- The initial value of a name that is declared alone. An element of a tuple is
read off the temporary that keeps the tuple. -/
def Expr.slottedInit (c : Setting) (name : String) : Option Expr → Pass Expr
  | none => pure .undefined
  | some e =>
    match e with
    | .index (.ident tuple) (.number i) => do
      let s := (← get).scopes
      if s.isElement name && s.isTemp tuple.name then
        let b ← s.binding tuple.name tuple.pos
        pure (.index (← Slotted.read c b) (.number i))
      else e.slotted c .value
    | _ => e.slotted c .value

def Declarator.slotted (c : Setting) (kind : DeclKind) (target : Pattern) (init : Option Expr)
    (pos : Position) : Pass Stmt :=
  if init.any (Expr.isContextRead c.root) then do
    bindAll target.boundNames
    pure (.decl ⟨kind, [⟨target, init, pos⟩]⟩)
  else match target with
    | .ident id => do
      let init ← Expr.slottedInit c id.name init
      declared c kind id.name init
    | _ => do
      let stmt ← unsupported c .patternOfPlainValue pos (.decl ⟨kind, [⟨target, init, pos⟩]⟩)
      bindAll target.boundNames
      pure stmt

theorem Declarator.listSlotted_cons (c : Setting) (kind : DeclKind) (target : Pattern)
    (init : Option Expr) (pos : Position) (rest : List Declarator) :
    Declarator.listSlotted c kind (⟨target, init, pos⟩ :: rest) = (do
      let stmt ← Declarator.slotted c kind target init pos
      return stmt :: (← Declarator.listSlotted c kind rest)) := by
  conv_lhs => unfold Declarator.listSlotted
  unfold Declarator.slotted
  cases init with
  | none =>
    cases target <;> simp only [Option.any_none, Bool.false_eq_true, if_false, bind_assoc,
      pure_bind, Expr.slottedInit]
  | some e =>
    simp only [Option.any_some]
    split
    · simp only [bind_assoc, pure_bind]
    · cases target with
      | ident id =>
        dsimp only [Expr.slottedInit]
        split
        · simp only [bind_assoc]
          refine bind_congr fun p => ?_
          split <;> simp only [bind_assoc, pure_bind]
        · simp only [bind_assoc]
      | _ => simp only [bind_assoc, pure_bind]

/-- The slotted form of one argument of a namespace call. -/
def Expr.slottedParam (c : Setting) (e : Expr) : Pass Expr :=
  match e with
  | .func f => .func <$> f.slotted c
  | .ident id => do
    match ← resolve c id with
    | .function => pure (.ident id)
    | .slot b => keyed c (c.slot b) .undefined
    | _ => keyed c (← identifier c id .value) .undefined
  | .index (.ident id) sub => do
    let sub ← sub.slotted c .value
    let base ← identifier c id .base
    if isNumberName id.name then keyed c (.index base sub) .undefined
    else keyed c base sub
  | e => do keyed c (← e.slotted c .value) .undefined

theorem Expr.slottedParams_cons (c : Setting) (e : Expr) (rest : List Expr) :
    Expr.slottedParams c (e :: rest) = (do
      let e ← e.slottedParam c
      return e :: (← Expr.slottedParams c rest)) := by
  conv_lhs => unfold Expr.slottedParams
  unfold Expr.slottedParam
  split
  · rfl
  · simp only [bind_assoc]
    refine bind_congr fun r => ?_
    cases r <;> simp only [bind_assoc]
  · simp only [bind_assoc]
    refine bind_congr fun sub => bind_congr fun base => ?_
    split <;> rfl
  · simp only [bind_assoc]

def ForInit.optSlotted (c : Setting) : Option ForInit → Pass (Option ForInit)
  | none => pure none
  | some (.decl ⟨kind, declarators⟩) =>
    (fun ds => some (.decl ⟨kind, ds⟩)) <$> Declarator.headerSlotted c declarators
  | some (.expr e) => (some ∘ .expr) <$> e.slotted c .value

/-- The slotted form of a counting loop, inside of its scope. -/
def Stmt.loopSlotted (c : Setting) (init : Option ForInit) (test update : Option Expr)
    (body : Stmt) : Pass Stmt :=
  match headerPatternPos? init with
  | some pos => unsupported c .patternInLoopHeader pos (.forLoop init test update body)
  | none => do
    let init ← ForInit.optSlotted c init
    let test ← Expr.optSlotted c test
    let update ← Expr.optSlotted c update
    let body ← body.slotted c true
    pure (.forLoop init test update (.block body))

theorem Stmt.slotted_forLoop (c : Setting) (inner : Bool) (init : Option ForInit)
    (test update : Option Expr) (body : Stmt) :
    (Stmt.forLoop init test update body).slotted c inner = (do
      enter .forLoop
      let loop ← Stmt.loopSlotted c init test update body
      leave
      return [loop]) := by
  rw [Stmt.slotted]
  unfold Stmt.loopSlotted
  refine bind_congr fun _ => ?_
  cases headerPatternPos? init with
  | some pos => rfl
  | none =>
    simp only [bind_assoc, pure_bind]
    obtain _ | ⟨⟨_, _⟩ | _⟩ := init <;> rfl

end BarScript

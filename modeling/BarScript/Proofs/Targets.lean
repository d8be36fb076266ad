import BarScript.Proofs.Correspondence
import BarScript.Proofs.Parsed

/-!
# Targets that are changed in place

A field or an element is changed in place by an update and by an assignment with an operator.
Both look for it twice: once for the value that is there, and once more for where the new
value goes. Each time its base and its subscript are evaluated, so a target whose parts have
effects may be read in one place and written in another.

Where looking again finds the same place and changes nothing, this is as if the target were
looked up once.
-/

namespace BarScript

open Machine

/-- Where a field or an element is. -/
inductive Place where
  | field (base : Value) (property : String)
  | element (base index : Value)

namespace Place

def read : Place → Exec Value
  | field base property => readMember base property
  | element base index => readElement base index

def write (v : Value) : Place → Exec Unit
  | field base property => writeMember base property v
  | element base index => writeElement base index v

variable {α : Type}

/-- Changes what is at a place that is looked up twice, for reading and for writing. -/
def changeTwice (find : Exec Place) (change : Value → Exec (Value × α)) : Exec α := do
  let (v, a) ← change (← (← find).read)
  (← find).write v
  return a

/-- Changes what is at a place that is looked up once. -/
def changeOnce (find : Exec Place) (change : Value → Exec (Value × α)) : Exec α := do
  let p ← find
  let (v, a) ← change (← p.read)
  p.write v
  return a

end Place

/-- Looks up a target that is a field or an element: its base, then its subscript. -/
def Expr.find? (host : Host) (env : Env) : Expr → Option (Exec Place)
  | .member base property => some do return .field (← base.eval host env) property
  | .index base sub => some do
    let base ← base.eval host env
    return .element base (← sub.eval host env)
  | _ => none

/-- What an operator with an assignment makes of a value: the new one, which is the result. -/
def BinaryOp.change (op : BinaryOp) (operand old : Value) : Exec (Value × Value) := do
  let v ← Exec.heap? fun h => h.binary? op old operand
  return (v, v)

/-- What an update makes of a value: the new one, and the result. -/
def UpdateOp.change (op : UpdateOp) (first : Bool) (old : Value) : Exec (Value × Value) := do
  let x ← Exec.heap fun h => h.number old
  let new := match op with
    | .increment => x + 1.0
    | .decrement => x - 1.0
  return (.number new, .number (if first then new else x))

/-- The target of an expression that changes it in place, and the change, for which the operand
of an assignment is evaluated first. -/
def Expr.inPlace? (host : Host) (env : Env) :
    Expr → Option (Expr × Exec (Value → Exec (Value × Value)))
  | .assign op target value => op.binary?.map fun bop =>
    (target, do return bop.change (← value.eval host env))
  | .update op first target => some (target, return op.change first)
  | _ => none

/-! ## Looking twice -/

variable {host : Host} {env : Env} {e t : Expr} {find : Exec Place} {m m' : Machine}
  {change : Exec (Value → Exec (Value × Value))}

theorem Expr.eval_of_find? (h : t.find? host env = some find) :
    t.eval host env = find >>= Place.read := by
  cases t with
  | member | index =>
    cases h
    simp only [Expr.eval, bind_assoc, pure_bind]
    rfl
  | _ => cases h

theorem Expr.write_of_find? (h : t.find? host env = some find) (v : Value) :
    t.write host env v = find >>= Place.write v := by
  cases t with
  | member | index =>
    cases h
    simp only [Expr.write, bind_assoc, pure_bind]
    rfl
  | _ => cases h

theorem Expr.eval_inPlace (he : e.inPlace? host env = some (t, change))
    (h : t.find? host env = some find) : e.eval host env = change >>= Place.changeTwice find := by
  cases e with
  | assign op target value =>
    obtain ⟨bop, hop, hchange⟩ := Option.map_eq_some_iff.1 he
    cases hchange
    rw [Expr.eval, hop]
    simp only [Expr.eval_of_find? h, Expr.write_of_find? h, Place.changeTwice, BinaryOp.change,
      bind_assoc, pure_bind]
  | update op first target =>
    cases he
    rw [Expr.eval, Expr.eval_of_find? h]
    cases op <;>
      simp only [Expr.write_of_find? h, Place.changeTwice, UpdateOp.change, bind_assoc, pure_bind]
  | _ => cases he

/-! ## Work that changes nothing -/

/-- Work that leaves every machine as it is. -/
def Exec.Still {α : Type} (x : Exec α) : Prop :=
  ∀ m, (∃ a, x m = .ok a m) ∨ ∃ h, x m = .error h m

namespace Exec

variable {α β : Type} {x : Exec α} {f : α → Exec β} {a : α}

theorem still_pure (a : α) : (pure a : Exec α).Still := fun _ => .inl ⟨a, rfl⟩

theorem still_heap (f : Heap → α) : (Exec.heap f).Still := fun _ => .inl ⟨_, rfl⟩

theorem still_heap? (f : Heap → Option α) : (Exec.heap? f).Still := by
  intro m
  rw [Exec.heap?_eq]
  cases f m.heap with
  | none => exact .inr ⟨_, rfl⟩
  | some a => exact .inl ⟨a, rfl⟩

theorem Still.bind (hx : x.Still) (hf : ∀ a, (f a).Still) : (x >>= f).Still := by
  intro m
  rcases hx m with ⟨a, ha⟩ | ⟨e, he⟩
  · rw [bind_ok ha]
    exact hf a m
  · exact .inr ⟨e, bind_error he⟩

end Exec

open Exec

theorem still_readElement (base index : Value) : (readElement base index).Still := by
  cases base with
  | object r => exact (still_heap? _).bind fun _ => still_heap _
  | _ => exact fun _ => .inl ⟨_, rfl⟩

theorem Place.still_read (p : Place) : p.read.Still := by
  cases p with
  | field base property => exact fun m => .inl ⟨m.member base property, rfl⟩
  | element base index => exact still_readElement base index

/-- What is made of a value depends on nothing but the machine it is made on. -/
theorem Expr.still_inPlace {f : Value → Exec (Value × Value)}
    (he : e.inPlace? host env = some (t, change)) (hf : change m = .ok f m') (v : Value) :
    (f v).Still := by
  cases e with
  | assign op target value =>
    obtain ⟨bop, -, hchange⟩ := Option.map_eq_some_iff.1 he
    cases hchange
    obtain ⟨operand, _, -, hf⟩ := bind_eq_ok hf
    cases hf
    exact (still_heap? _).bind fun _ => still_pure _
  | update op first target =>
    cases he
    cases hf
    exact (still_heap _).bind fun _ => still_pure _
  | _ => cases he

/-! ## Looking once -/

/-- A place that is found again, with nothing changed, right after it was found. -/
def Place.FoundAgain (find : Exec Place) (m : Machine) : Prop :=
  ∀ p m', find m = .ok p m' → find m' = .ok p m'

/-- **A place that is found again** is changed as if it were looked up once. -/
theorem Place.changeTwice_eq {α : Type} {f : Value → Exec (Value × α)} (hagain : FoundAgain find m)
    (hf : ∀ v, (f v).Still) : changeTwice find f m = changeOnce find f m := by
  unfold changeTwice changeOnce
  cases hp : find m with
  | error e m' => rw [bind_error hp, bind_error hp]
  | ok p m' =>
    rw [bind_ok hp, bind_ok hp]
    -- reading and changing leave the machine that the place was found on
    rcases p.still_read m' with ⟨old, hold⟩ | ⟨e, he⟩
    · rw [bind_ok hold, bind_ok hold]
      rcases hf old m' with ⟨⟨v, a⟩, hv⟩ | ⟨e, he⟩
      · rw [bind_ok hv, bind_ok hv]
        exact bind_ok (hagain p m' hp)
      · rw [bind_error he, bind_error he]
    · rw [bind_error he, bind_error he]

/-- **Targets that are changed in place are looked up twice.** An assignment with an operator
and an update of a field or an element evaluate the base and the subscript of the target, read
what is there, evaluate both again, and write to what they then find. If the place is found
again with nothing changed, they do what they would do if they looked once, with one place to
read and to write. -/
theorem changed_targets_are_found_twice (he : e.inPlace? host env = some (t, change))
    (hfind : t.find? host env = some find) :
    e.eval host env = change >>= Place.changeTwice find ∧
    ∀ m f m', change m = .ok f m' → Place.FoundAgain find m' →
      e.eval host env m = Place.changeOnce find f m' := by
  rw [Expr.eval_inPlace he hfind]
  refine ⟨rfl, fun m f m' hf hagain => ?_⟩
  rw [bind_ok hf]
  exact Place.changeTwice_eq hagain (Expr.still_inPlace he hf)

/-- The element `this[0]`, which is found again on every machine, in `this[0] += 1`. -/
theorem changed_targets_are_found_twice_again :
    let host : Host := ⟨.na, 1, fun _ _ _ => pure .na⟩
    let t : Expr := .index .this (.number 0)
    ∃ find change f, (Expr.assign .add t (.number 1)).inPlace? host [] = some (t, change) ∧
      t.find? host [] = some find ∧ ∀ m, change m = .ok f m ∧ Place.FoundAgain find m ∧
        (Expr.assign .add t (.number 1)).eval host [] m = Place.changeOnce find f m := by
  refine ⟨_, _, BinaryOp.change .add (.number 1), rfl, rfl, fun m => ?_⟩
  have hagain : Place.FoundAgain (do return .element (← pure .na) (← pure (.number 0))) m := by
    intro p m' h
    cases h
    rfl
  exact ⟨rfl, hagain, (changed_targets_are_found_twice rfl rfl).2 m _ m rfl hagain⟩

/-- A subscript that counts how often it is evaluated:
`c => { let n = 0; const f = () => { n = n + 1; return 0 }; const a = [5]; a[f()] += 1; return n
}`. -/
def countedText : String :=
  "c => \x7b let n = 0; const f = () => \x7b n = n + 1; return 0 \x7d; const a = [5]; " ++
    "a[f()] += 1; return n \x7d"

/-- One assignment evaluates the subscript of its target twice. -/
theorem subscript_evaluated_twice :
    ∃ p x m, parse countedText = .ok p ∧ Machine.run .na p {} = .ok (.number x) m ∧
      (x == 2) = true := by
  have h : Except.gives (fun p => Ending.gives (fun v _ => match v with
      | .number x => x == 2
      | _ => false) (Machine.run .na p {})) (parse countedText) = true := by
    refine gives_parse (toList_append_of String.toList_ofList String.toList_ofList) ?_
    decide +kernel
  obtain ⟨p, hp, h⟩ := Except.exists_of_gives h
  obtain ⟨v, m, hv, h⟩ := Ending.exists_of_gives h
  cases v with
  | number x => exact ⟨p, x, m, hp, hv, h⟩
  | _ => exact nomatch h

end BarScript

import BarScript.Proofs.Bars
import BarScript.Proofs.RoundTrip.Lexemes
import BarScript.Proofs.Simulation.Eval

/-!
# Equality and inequality of compiled scripts

Compiling turns an equality into a call that allows for a tolerance, and leaves an inequality
as it is. So two functions decide what looks like one question and its negation. On texts, and
on arrays and objects, which are compared as such, the two agree, and on everything else both
compare numbers. What is left are two kinds of pairs: two missing values, which are no
numbers and yet not unequal, and numbers that differ by less than the tolerance.
-/

namespace BarScript

open Machine Slotted

/-! ## Numbers -/

namespace Number

theorem isNaN_of_beq {x y : Float} (h : (x == y) = true) : x.isNaN = false ∧ y.isNaN = false := by
  have hcompare : (x.toModel.unpack.compare y.toModel.unpack == some .eq) = true := h
  show x.toModel.unpack.isNaN = false ∧ y.toModel.unpack.isNaN = false
  cases hx : x.toModel.unpack <;> cases hy : y.toModel.unpack <;>
    first | exact ⟨rfl, rfl⟩ | (rw [hx, hy] at hcompare; exact nomatch hcompare)

theorem nan_beq (y : Float) : (nan == y) = false := by
  cases h : nan == y with
  | false => rfl
  | true => exact absurd (isNaN_of_beq h).1 (by decide)

theorem beq_nan (x : Float) : (x == nan) = false := by
  cases h : x == nan with
  | false => rfl
  | true => exact absurd (isNaN_of_beq h).2 (by decide)

end Number

namespace Heap

theorem closeEnough_of_beq {x y : Float} (h : (x == y) = true) : closeEnough x y = true := by
  obtain ⟨hx, hy⟩ := Number.isNaN_of_beq h
  unfold closeEnough
  rw [hx, hy, h]
  rfl

theorem closeEnough_nan (x : Float) : closeEnough x Number.nan = false := by
  have hnan : Number.nan.isNaN = true := by decide
  unfold closeEnough
  rw [hnan, Bool.not_true, Bool.and_false, Bool.false_and]

/-! ## Values -/

/-- How two values are compared that are not compared as numbers: texts by what they say, and
arrays and objects by what they are. -/
def compareAs? : Value → Value → Option Bool
  | .str a, .str b => some (a == b)
  | .array a, .array b => some (a == b)
  | .object a, .object b => some (a == b)
  | _, _ => none

theorem compareAs?_eq_none (hstr : ∀ a b, x = .str a → y = .str b → False)
    (harray : ∀ a b, x = .array a → y = .array b → False)
    (hobject : ∀ a b, x = .object a → y = .object b → False) : compareAs? x y = none := by
  unfold compareAs?
  split
  · exact (hstr _ _ rfl rfl).elim
  · exact (harray _ _ rfl rfl).elim
  · exact (hobject _ _ rfl rfl).elim
  · rfl

variable (h : Heap)

def BothMissing (a b : Value) : Prop :=
  h.current a = .na ∧ h.current b = .na

/-- Two values that are compared as numbers, are not equal, and are within the tolerance. -/
def NearlyEqual (a b : Value) : Prop :=
  compareAs? (h.current a) (h.current b) = none ∧
    (h.number (h.current a) == h.number (h.current b)) = false ∧
    closeEnough (h.number (h.current a)) (h.number (h.current b)) = true

theorem looseEq_eq (hmissing : ¬ (x = .na ∧ y = .na)) :
    h.looseEq x y = (compareAs? x y).getD (h.number x == h.number y) := by
  unfold looseEq
  split
  · exact absurd ⟨rfl, rfl⟩ hmissing
  · exact (Number.nan_beq _).symm
  · next hx =>
    have hnone : compareAs? x .na = none := by cases x <;> rfl
    rw [hnone]
    exact (Number.beq_nan _).symm
  · rfl
  · rfl
  · rfl
  · next hstr harray hobject =>
    rw [compareAs?_eq_none hstr harray hobject]
    rfl

/-- The comparison that an equality becomes. Truth values are no exception: as numbers they are
far apart. -/
theorem tolerantEq_eq (a b : Value) : h.tolerantEq a b =
    (compareAs? (h.current a) (h.current b)).getD
      (closeEnough (h.number (h.current a)) (h.number (h.current b))) := by
  unfold tolerantEq
  split
  · next hx hy => rw [hx, hy]; rfl
  · next x y hx hy =>
    rw [hx, hy]
    show (x == y) = closeEnough (if x = true then 1.0 else 0.0) (if y = true then 1.0 else 0.0)
    cases x <;> cases y <;> decide
  · next hx hy => rw [hx, hy]; rfl
  · next hx hy => rw [hx, hy]; rfl
  · next hstr _ harray hobject =>
    rw [compareAs?_eq_none hstr harray hobject]
    rfl

variable {h} {a b : Value}

theorem tolerantEq_of_missing (hab : h.BothMissing a b) : h.tolerantEq a b = false := by
  rw [tolerantEq_eq, hab.1, hab.2]
  exact closeEnough_nan _

theorem looseEq_of_missing (hab : h.BothMissing a b) :
    h.looseEq (h.current a) (h.current b) = true := by
  rw [hab.1, hab.2]
  rfl

theorem tolerantEq_of_nearlyEqual (hab : h.NearlyEqual a b) : h.tolerantEq a b = true := by
  rw [tolerantEq_eq, hab.1]
  exact hab.2.2

theorem looseEq_of_nearlyEqual (hab : h.NearlyEqual a b) :
    h.looseEq (h.current a) (h.current b) = false := by
  have hmissing : ¬ h.BothMissing a b := fun hmissing =>
    absurd (tolerantEq_of_nearlyEqual hab) (by rw [tolerantEq_of_missing hmissing]; decide)
  rw [looseEq_eq h hmissing, hab.1]
  exact hab.2.1

/-- **The two comparisons agree** on all pairs but those of two kinds. -/
theorem looseEq_eq_tolerantEq (hmissing : ¬ h.BothMissing a b) (hnear : ¬ h.NearlyEqual a b) :
    h.looseEq (h.current a) (h.current b) = h.tolerantEq a b := by
  rw [looseEq_eq h hmissing, tolerantEq_eq]
  cases hsame : compareAs? (h.current a) (h.current b) with
  | some v => rfl
  | none =>
    cases heq : h.number (h.current a) == h.number (h.current b) with
    | true => exact (closeEnough_of_beq heq).symm
    | false =>
      cases hclose : closeEnough (h.number (h.current a)) (h.number (h.current b)) with
      | false => rfl
      | true => exact absurd ⟨hsame, heq, hclose⟩ hnear

end Heap

/-! ## Expressions -/

section Points

variable {host : Host} {env : Env} {m m₁ m' : Machine} {root : String} {l r : Expr}

/-- The callee of a comparison is found through the context. -/
theorem eval_comparison (hroot : m.heap.lookup? env root = some .context) :
    (Expr.member (.member (.named root) "math") "__eq").eval host env m =
      .ok (.native .math "__eq") m := by
  have hcontext : (Expr.named root).eval host env m = .ok .context m := readName_of_lookup? hroot
  have hmath : (Expr.member (.named root) "math").eval host env m = .ok (.group .math) m :=
    Exec.bind_ok hcontext
  exact Exec.bind_ok hmath

/-- **An equality** evaluates its operands and compares what they give. -/
theorem eval_equality (hroot : m.heap.lookup? env root = some .context) :
    (Equality.call root l r).eval host env m =
      (do
        let a ← l.eval host env
        let b ← r.eval host env
        Exec.heap fun h => .bool (h.tolerantEq a b) : Exec Value) m := by
  refine (Exec.bind_ok (eval_comparison hroot)).trans ?_
  simp only [Expr.evalList, bind_assoc, pure_bind]
  rfl

def BinaryOp.isInequality : BinaryOp → Bool
  | .notEq | .strictNotEq => true
  | _ => false

/-- **An inequality** does the same with a comparison of its own. -/
theorem eval_inequality {ne : BinaryOp} (hne : ne.isInequality = true) :
    (Expr.binary ne l r).eval host env =
      (do
        let a ← l.eval host env
        let b ← r.eval host env
        Exec.heap fun h => .bool (!h.looseEq (h.current a) (h.current b)) : Exec Value) := by
  cases ne with
  | notEq | strictNotEq => rfl
  | _ => cases hne

end Points

/-- What an equality and an inequality of the same values make of each other. -/
structure Heap.Opposed (h : Heap) (a b : Value) (equal unequal : Bool) : Prop where
  /-- Missing values are neither equal nor unequal. -/
  missing : h.BothMissing a b → equal = false ∧ unequal = false
  /-- Numbers within the tolerance are both. -/
  near : h.NearlyEqual a b → equal = true ∧ unequal = true
  other : ¬ h.BothMissing a b → ¬ h.NearlyEqual a b → unequal = !equal

theorem Heap.opposed (h : Heap) (a b : Value) :
    h.Opposed a b (h.tolerantEq a b) (!h.looseEq (h.current a) (h.current b)) where
  missing hab := ⟨tolerantEq_of_missing hab, by rw [looseEq_of_missing hab]; rfl⟩
  near hab := ⟨tolerantEq_of_nearlyEqual hab, by rw [looseEq_of_nearlyEqual hab]; rfl⟩
  other hmissing hnear := congrArg _ (looseEq_eq_tolerantEq hmissing hnear)

/-- **Inequality is the negation of equality, two kinds of pairs apart.** Compile an equality and
an inequality of the same operands at the same place. Both have the same compiled operands.
Evaluate them from the same point of any run, where the name of the context stands for the
context. If an operand fails, both fail with it. Else both leave the same machine and give truth
values, which are opposite unless the operands are two missing values or two numbers that differ
by less than the tolerance: of the former both are false, and of the latter both are true. -/
theorem inequality_negates_equality {c : Setting} {role : Role} {op op' : BinaryOp}
    (hop : op.isEquality = true) (hop' : op'.isInequality = true) {l r e : Expr} {s s' : Progress}
    (h : (Expr.binary op l r).slotted c role s = .ok (e, s')) :
    ∃ l' r', e = .binary op l' r' ∧
      (Expr.binary op' l r).slotted c role s = .ok (.binary op' l' r', s') ∧
      ∀ (host : Host) (env : Env) (m : Machine), m.heap.lookup? env c.root = some .context →
        (∃ err m', (e.tolerant c.root).eval host env m = .error err m' ∧
          ((Expr.binary op' l' r').tolerant c.root).eval host env m = .error err m') ∨
        ∃ a m₁ b m' equal unequal, (l'.tolerant c.root).eval host env m = .ok a m₁ ∧
          (r'.tolerant c.root).eval host env m₁ = .ok b m' ∧
          (e.tolerant c.root).eval host env m = .ok (.bool equal) m' ∧
          ((Expr.binary op' l' r').tolerant c.root).eval host env m = .ok (.bool unequal) m' ∧
          m'.heap.Opposed a b equal unequal := by
  obtain ⟨l', s₁, hl, h⟩ := StateT.bind_eq_ok h
  obtain ⟨r', s₂, hr, h⟩ := StateT.bind_eq_ok h
  cases h
  refine ⟨l', r', rfl, ?_, fun host env m hroot => ?_⟩
  · exact (StateT.bind_ok hl).trans ((StateT.bind_ok hr).trans rfl)
  have hequal : (Expr.binary op l' r').tolerant c.root =
      Equality.call c.root (l'.tolerant c.root) (r'.tolerant c.root) := if_pos hop
  have hunequal : (Expr.binary op' l' r').tolerant c.root =
      .binary op' (l'.tolerant c.root) (r'.tolerant c.root) := by
    refine if_neg ?_
    cases op' with
    | notEq | strictNotEq => exact Bool.false_ne_true
    | _ => exact nomatch hop'
  rw [hequal, hunequal, eval_equality hroot, eval_inequality hop']
  -- the two runs part only after both operands
  cases ha : (l'.tolerant c.root).eval host env m with
  | error err m' =>
    exact .inl ⟨err, m', Exec.bind_error ha, Exec.bind_error ha⟩
  | ok a m₁ =>
    cases hb : (r'.tolerant c.root).eval host env m₁ with
    | error err m' =>
      exact .inl ⟨err, m', (Exec.bind_ok ha).trans (Exec.bind_error hb),
        (Exec.bind_ok ha).trans (Exec.bind_error hb)⟩
    | ok b m' =>
      exact .inr ⟨a, m₁, b, m', _, _, rfl, hb, (Exec.bind_ok ha).trans (Exec.bind_ok hb),
        (Exec.bind_ok ha).trans (Exec.bind_ok hb), m'.heap.opposed a b⟩

section Missing

def Slotted.Progress.withX : Progress :=
  { scopes := ((({} : Scopes).push .global).2.declare "x" .let).2 }

def Slotted.Setting.currentX : Expr :=
  .index (.member (.member (.named "c") "let") "glb1_x") (.number 0.0)

/-- A machine on which the context has a name and no slots. -/
def Machine.bare : Machine :=
  { heap := { frames := #[.ofList [("c", .context)]] } }

def Host.bare : Host :=
  ⟨.na, 0, fun _ _ _ => pure .na⟩

/-- Before it is declared, `x` neither equals `null` nor does it not. -/
theorem inequality_negates_equality_missing :
    BinaryOp.isEquality .eq = true ∧ BinaryOp.isInequality .strictNotEq = true ∧
      (∃ s', (Expr.binary .eq (.named "x") .null).slotted ⟨{}, "c"⟩ .value .withX =
        .ok (.binary .eq Setting.currentX .null, s')) ∧
      Machine.bare.heap.lookup? [0] "c" = some .context ∧
      ∃ m', (Equality.call "c" Setting.currentX .null).eval .bare [0] .bare = .ok (.bool false) m' ∧
        (Expr.binary .strictNotEq Setting.currentX .null).eval .bare [0] .bare =
          .ok (.bool false) m' := by
  have h : (Expr.binary .eq (.named "x") .null).slotted ⟨{}, "c"⟩ .value .withX =
      .ok (.binary .eq Setting.currentX .null, { Progress.withX with reads := 1 }) := rfl
  have hne : BinaryOp.isInequality .strictNotEq = true := rfl
  refine ⟨rfl, hne, ⟨_, h⟩, rfl, ?_⟩
  obtain ⟨_, _, ⟨⟩, -, hpoint⟩ := inequality_negates_equality rfl hne h
  rcases hpoint .bare [0] .bare rfl with ⟨err, m', herr, -⟩ |
    ⟨a, m₁, b, m', equal, unequal, ha, hb, hequal, hunequal, hopposed⟩
  · exact nomatch herr
  · cases ha
    cases hb
    obtain ⟨rfl, rfl⟩ := hopposed.missing ⟨rfl, rfl⟩
    exact ⟨_, hequal, hunequal⟩

end Missing

/-- Two numbers that differ by a billionth:
`c => { return { eq: 1 == 1.000000001, ne: 1 != 1.000000001 } }`. -/
def billionthText : String :=
  "c => \x7b return \x7b eq: 1 == 1.000000001, ne: 1 != 1.000000001 \x7d \x7d"

set_option maxRecDepth 100000 in
theorem billionth_is_equal_and_not :
    ∃ ind o m, Indicator.compileAndBind {} billionthText .null = .ok ind ∧
      (ind.run {} [.flat 1 1]).1 = .ok (o, m) ∧ o.bools? "eq" = some [true] ∧
      o.bools? "ne" = some [true] := by
  have h : Except.gives (fun ind => Except.gives
      (fun r => r.1.bools? "eq" == some [true] && r.1.bools? "ne" == some [true])
      (ind.run {} [.flat 1 1]).1) (Indicator.compileAndBind {} billionthText .null) = true := by
    refine gives_compileAndBind String.toList_ofList ?_
    decide +kernel
  obtain ⟨ind, hind, h⟩ := Except.exists_of_gives h
  obtain ⟨⟨o, m⟩, hrun, h⟩ := Except.exists_of_gives h
  simp only [Bool.and_eq_true, beq_iff_eq] at h
  exact ⟨ind, o, m, hind, hrun, h⟩

end BarScript

import BarScript.Proofs.Heap
import BarScript.Script.Names

/-!
# Names in cover

A name is found when it is looked up if one of the open frames has it. Which frames have a
name depends on the run, but something can be told from the script: a function has its
parameters, a block the functions in it from its beginning, and what is declared is there
from the next declarator on. A use of a name is in cover if one of these, at the place of
the use or around it, has the name; what a function that is a statement uses must be there
when its block begins, since it may be called from then on. `uncovered` gives the names of
all uses that are out of cover. Names that are `free` need not be in cover to be read, only
to be assigned to; in a run these are the names that stand for a value by themselves.

A function is called when other frames are open than where it was made, so what covers its
body is what the frames have that it was made in. These only ever gain names.
-/

namespace BarScript

open Machine

/-! ## Uses out of cover -/

/-- The functions that a list of statements has from its beginning. -/
def Stmt.hoisted : List Stmt → List String
  | [] => []
  | .func f :: rest =>
    match f.name with
    | some id => id.name :: Stmt.hoisted rest
    | none => []
  | _ :: rest => Stmt.hoisted rest

def Declarator.introduced (ds : List Declarator) : List String :=
  ds.flatMap fun d => d.target.names

/-- The names that a statement declares for those after it. -/
def Stmt.introduced : Stmt → List String
  | .decl ⟨_, ds⟩ => Declarator.introduced ds
  | _ => []

/-- The names that the header of a loop declares. -/
def ForInit.introduced : Option ForInit → List String
  | some (.decl ⟨_, ds⟩) => Declarator.introduced ds
  | _ => []

/-- The name that is assigned to, if it is not in cover. -/
def Expr.assignedUncovered (ρ : List String) : Expr → List String
  | .ident id => if id.name ∈ ρ then [] else [id.name]
  | _ => []

/-- Whether a name stands for a value by itself. -/
def isFreeName (x : String) : Bool :=
  (freeName? x).isSome

section Uses

variable (free : String → Bool)

mutual

/-- The names that an expression uses out of cover. -/
def Expr.uncovered (ρ : List String) : Expr → List String
  | .ident id => if id.name ∈ ρ ∨ free id.name = true then [] else [id.name]
  | .member base _ => base.uncovered ρ
  | .index base sub => base.uncovered ρ ++ sub.uncovered ρ
  | .call callee args => callee.uncovered ρ ++ Expr.listUncovered ρ args
  | .unary _ arg => arg.uncovered ρ
  | .update _ _ target => target.assignedUncovered ρ ++ target.uncovered ρ
  | .binary _ left right => left.uncovered ρ ++ right.uncovered ρ
  | .logical _ left right => left.uncovered ρ ++ right.uncovered ρ
  | .conditional test consequent alternate =>
    test.uncovered ρ ++ (consequent.uncovered ρ ++ alternate.uncovered ρ)
  | .assign _ target value =>
    target.assignedUncovered ρ ++ (target.uncovered ρ ++ value.uncovered ρ)
  | .array items => Expr.listUncovered ρ items
  | .object props => Expr.propUncovered ρ props
  | .func f => f.uncovered ρ
  | .number _ | .str _ | .bool _ | .null | .undefined | .this => []

def Expr.listUncovered (ρ : List String) : List Expr → List String
  | [] => []
  | e :: rest => e.uncovered ρ ++ Expr.listUncovered ρ rest

def Expr.propUncovered (ρ : List String) : List (String × Expr) → List String
  | [] => []
  | (_, e) :: rest => e.uncovered ρ ++ Expr.propUncovered ρ rest

def Expr.optUncovered (ρ : List String) : Option Expr → List String
  | none => []
  | some e => e.uncovered ρ

def Func.uncovered (ρ : List String) : Func → List String
  | ⟨_, params, body, _, _⟩ => body.uncovered (params.map Ident.name ∪ ρ)

def FuncBody.uncovered (ρ : List String) : FuncBody → List String
  | .block stmts => Stmt.listUncovered (Stmt.hoisted stmts ∪ ρ) (Stmt.hoisted stmts ∪ ρ) stmts
  | .expr e => e.uncovered ρ

/-- The names that a statement uses out of cover. Functions have a cover of their own, the one
at the beginning of the block; a body without braces is taken as a block. -/
def Stmt.uncovered (ρ₀ ρ : List String) : Stmt → List String
  | .decl ⟨_, ds⟩ => Declarator.listUncovered ρ ds
  | .expr e => e.uncovered ρ
  | .branch test consequent alternate =>
    test.uncovered ρ ++
      (consequent.uncovered (Stmt.hoisted [consequent] ∪ ρ) ρ ++ Stmt.optUncovered ρ alternate)
  | .forLoop init test update body =>
    ForInit.uncovered ρ init ++ (Expr.optUncovered (ForInit.introduced init ∪ ρ) test ++
        (Expr.optUncovered (ForInit.introduced init ∪ ρ) update ++
          body.uncovered (Stmt.hoisted [body] ∪ (ForInit.introduced init ∪ ρ))
            (ForInit.introduced init ∪ ρ)))
  | .whileLoop test body => test.uncovered ρ ++ body.uncovered (Stmt.hoisted [body] ∪ ρ) ρ
  | .block stmts => Stmt.listUncovered (Stmt.hoisted stmts ∪ ρ) (Stmt.hoisted stmts ∪ ρ) stmts
  | .ret arg => Expr.optUncovered ρ arg
  | .func f => f.uncovered ρ₀
  | .breakLoop | .continueLoop | .empty => []

def Stmt.listUncovered (ρ₀ ρ : List String) : List Stmt → List String
  | [] => []
  | s :: rest => s.uncovered ρ₀ ρ ++ Stmt.listUncovered ρ₀ (s.introduced ∪ ρ) rest

def Stmt.optUncovered (ρ : List String) : Option Stmt → List String
  | none => []
  | some s => s.uncovered (Stmt.hoisted [s] ∪ ρ) ρ

def ForInit.uncovered (ρ : List String) : Option ForInit → List String
  | none => []
  | some (.decl ⟨_, ds⟩) => Declarator.listUncovered ρ ds
  | some (.expr e) => e.uncovered ρ

def Declarator.listUncovered (ρ : List String) : List Declarator → List String
  | [] => []
  | ⟨target, init, _⟩ :: rest =>
    Expr.optUncovered ρ init ++ Declarator.listUncovered (target.names ∪ ρ) rest

end

end Uses

/-- The names that a script uses out of cover. -/
def Program.uncovered (p : Program) : List String :=
  p.root.uncovered isFreeName []

/-! ## Frames -/

namespace Heap

variable {h h' h'' : Heap} {env : Env} {ρ ρ' : List String} {r : Ref} {x : String}

def Has (h : Heap) (r : Ref) (x : String) : Prop :=
  ((h.frame r).get? x).isSome = true

/-- The frames of an environment have all names of a cover. -/
def Covers (h : Heap) (env : Env) (ρ : List String) : Prop :=
  ∀ x ∈ ρ, ∃ r ∈ env, h.Has r x

/-- The innermost frame of an environment is there. -/
def Open (h : Heap) (env : Env) : Prop :=
  ∃ r outer, env = r :: outer ∧ r < h.frames.size

/-- Frames stay, and gain names. -/
structure Grows (h h' : Heap) : Prop where
  size : h.frames.size ≤ h'.frames.size
  has : ∀ {r x}, h.Has r x → h'.Has r x

theorem Grows.refl (h : Heap) : h.Grows h := ⟨Nat.le_refl _, id⟩

theorem Grows.trans (hg : h.Grows h') (hg' : h'.Grows h'') : h.Grows h'' :=
  ⟨Nat.le_trans hg.size hg'.size, fun hx => hg'.has (hg.has hx)⟩

theorem Grows.of_frames (hf : h'.frames = h.frames) : h.Grows h' := by
  refine ⟨Nat.le_of_eq (congrArg Array.size hf.symm), fun {r x} hx => ?_⟩
  unfold Has frame
  rw [hf]
  exact hx

theorem Covers.mono (hc : h.Covers env ρ) (hg : h.Grows h') : h'.Covers env ρ := fun x hx =>
  let ⟨r, hr, hhas⟩ := hc x hx
  ⟨r, hr, hg.has hhas⟩

theorem Covers.union (hc : h.Covers env ρ) (hc' : h.Covers env ρ') : h.Covers env (ρ ∪ ρ') :=
  fun x hx => (List.mem_union_iff.1 hx).elim (hc x) (hc' x)

theorem Covers.cons (hc : h.Covers env ρ) (r : Ref) : h.Covers (r :: env) ρ := fun x hx =>
  let ⟨q, hq, hhas⟩ := hc x hx
  ⟨q, List.mem_cons_of_mem r hq, hhas⟩

theorem covers_nil (h : Heap) (env : Env) : h.Covers env [] := fun _ hx => by cases hx

theorem Open.mono (ho : h.Open env) (hg : h.Grows h') : h'.Open env :=
  let ⟨r, outer, henv, hr⟩ := ho
  ⟨r, outer, henv, Nat.lt_of_lt_of_le hr hg.size⟩

theorem isSome_lookup? (hx : ∃ r ∈ env, h.Has r x) : (h.lookup? env x).isSome = true := by
  induction env with
  | nil =>
    obtain ⟨r, hr, -⟩ := hx
    cases hr
  | cons q outer ih =>
    unfold lookup?
    cases hq : (h.frame q).get? x with
    | some v => rfl
    | none =>
      obtain ⟨r, hr, hhas⟩ := hx
      rcases List.mem_cons.1 hr with rfl | hr
      · rw [Has, hq] at hhas
        cases hhas
      · exact ih ⟨r, hr, hhas⟩

theorem isSome_frameOf? (h : Heap) (env : Env) (x : String) :
    (h.frameOf? env x).isSome = (h.lookup? env x).isSome := by
  induction env with
  | nil => rfl
  | cons q outer ih =>
    unfold frameOf? lookup?
    cases (h.frame q).get? x with
    | some v => rfl
    | none => exact ih

theorem mem_of_lookup? (hv : h.lookup? env x = some v) : ∃ r, v ∈ (h.frame r).values := by
  induction env with
  | nil => cases hv
  | cons q outer ih =>
    unfold lookup? at hv
    cases hq : (h.frame q).get? x with
    | some w =>
      rw [hq] at hv
      cases hv
      exact ⟨q, Dict.mem_values_of_get? hq⟩
    | none =>
      rw [hq] at hv
      exact ih hv

theorem grows_define (name : String) (v : Value) : h.Grows (h.define r name v) := by
  refine ⟨Nat.le_of_eq Array.size_modify.symm, fun {q x} hx => ?_⟩
  unfold Has at hx ⊢
  rw [frame_define]
  split
  · next hq =>
    rw [Dict.get?_insert]
    split
    · rfl
    · exact hq.1 ▸ hx
  · exact hx

theorem has_define (v : Value) (hr : r < h.frames.size) : (h.define r name v).Has r name := by
  unfold Has
  rw [frame_define, if_pos ⟨rfl, hr⟩, Dict.get?_insert_self]
  rfl

theorem grows_newFrame (d : Dict Value) : h.Grows (h.newFrame d).2 := by
  refine ⟨?_, fun {q x} hx => ?_⟩
  · show h.frames.size ≤ (h.frames.push d).size
    rw [Array.size_push]
    exact Nat.le_succ _
  · unfold Has at hx ⊢
    rw [frame_newFrame]
    split
    · next hq =>
      -- a frame that is not there yet has no names
      rw [hq, frame, Array.getD_eq_getD_getElem?, Array.getElem?_eq_none (Nat.le_refl _)] at hx
      cases hx
    · exact hx

theorem lt_newFrame (d : Dict Value) : h.frames.size < (h.newFrame d).2.frames.size := by
  show h.frames.size < (h.frames.push d).size
  rw [Array.size_push]
  exact Nat.lt_succ_self _

theorem frame_newFrame_self (d : Dict Value) : (h.newFrame d).2.frame h.frames.size = d := by
  rw [frame_newFrame, if_pos rfl]

end Heap

end BarScript

import BarScript.Proofs.Bars
import BarScript.Proofs.Naming.Keys
import BarScript.Proofs.RoundTrip.Lexemes

/-!
# Names resolve lexically

The scopes of a script are the script itself, the sides of branches, loops and
functions; a block by itself is none, and a loop is one scope with its header. A use of
a name is settled by the innermost scope that has met the name before the use. If that
scope declares it, the use becomes the slot of its newest declaration. Parameters,
variables of loop headers and what is read off the context are locals that keep their
names, and so do the names that hold throughout the script, those of functions and of
the context, which come after all scopes.
-/

namespace BarScript

/-! ## Slots of different scopes -/

namespace Scopes

theorem mark_injective : Function.Injective ScopeKind.mark := by
  intro k k' h
  cases k <;> cases k' <;> first | rfl | exact absurd h (by decide)

theorem mark_isDigit (k : ScopeKind) : ∀ ch ∈ k.mark.toList, ch.isDigit = false := by
  have hall : k.mark.toList.all (fun ch => !ch.isDigit) = true := by cases k <;> decide
  intro ch hch
  simpa using List.all_eq_true.1 hall ch hch

/-- **Slots of different scopes are different**, and so are those of different names in
one scope. -/
theorem slotName_inj {k k' : ScopeKind} {n n' : Nat} {x x' : String}
    (h : slotName k n x = slotName k' n' x') : k = k' ∧ n = n' ∧ x = x' := by
  obtain rfl := slotName_injective h
  have hscope : k.mark ++ Nat.repr n = k'.mark ++ Nat.repr n' := by
    unfold slotName at h
    rwa [String.append_left_inj, String.append_left_inj] at h
  have hchars : k.mark.toList ++ (Nat.repr n).toList = k'.mark.toList ++ (Nat.repr n').toList := by
    rw [← String.toList_append, ← String.toList_append, hscope]
  -- the digits start where the mark ends
  have hmark : ∀ (k : ScopeKind) (n : Nat),
      (k.mark.toList ++ (Nat.repr n).toList).takeWhile (fun ch => !ch.isDigit) = k.mark.toList := by
    intro k n
    rw [List.takeWhile_append_of_pos fun ch hch => by rw [mark_isDigit k ch hch]; rfl]
    cases hdigits : (Nat.repr n).toList with
    | nil => rw [List.takeWhile_nil, List.append_nil]
    | cons ch rest =>
      have hch : ch.isDigit = true := by
        have hmem : ch ∈ (Nat.repr n).toList := hdigits ▸ List.mem_cons_self
        rw [Nat.repr_eq_ofList_toDigits, String.toList_ofList] at hmem
        exact Nat.isDigit_of_mem_toDigits (by decide) (by decide) hmem
      rw [List.takeWhile_cons_of_neg (by rw [hch]; decide), List.append_nil]
  have hk : k = k' := by
    refine mark_injective (String.toList_inj.1 ?_)
    rw [← hmark k n, hchars, hmark]
  subst hk
  exact ⟨rfl, repr_injective ((String.append_right_inj _).1 hscope), rfl⟩

end Scopes

open Slotted

namespace Naming

variable {F : List Frame} {name : String} {f : Frame} {s : Scopes} {b : Binding}

/-- How the slot of a name is used: for its current value or for its history. -/
def useOf (c : Setting) (b : Binding) : Role → Expr
  | .value => c.current b
  | .base => c.slot b

/-- What the innermost scope that has met a name makes of a use of it. -/
structure Denotes (c : Setting) (f : Frame) (role : Role) (id : Ident) (e : Expr) : Prop where
  /-- Variables of loop headers are read as they are. -/
  counted : id.name ∈ f.loopVars → e = .ident id
  /-- Declared names are read off the slot of the newest declaration. -/
  declared : id.name ∉ f.loopVars → id.name ∉ f.bound →
    ∃ b, f.vars.lookup id.name = some b ∧ e = useOf c b role
  /-- Names that are handed to the scope are read as they are, also if it declares them
  later: a parameter wins over a declaration in its function. -/
  handed : id.name ∈ f.bound → e = .ident id

end Naming

open Naming

end BarScript

import BarScript.Compile.Scope
import Mathlib.Data.List.Nodup
import Mathlib.Data.List.Perm.Subperm

/-!
# Names that a compilation hands out

A temporary has a number, and the first number from some point on is taken whose
name the script does not write. There is one among as many candidates as there
are taken names and one more, since different numbers have different names.

A slot is named after its scope and the name it is for, with an underscore between
them that is the first one in the name of the slot. So slots of different names are
different, whatever their scopes are.
-/

namespace BarScript

open List

namespace Scopes

theorem repr_injective : Function.Injective Nat.repr := fun a b h => by
  have hdigits := congrArg String.toList h
  rw [Nat.repr_eq_ofList_toDigits, Nat.repr_eq_ofList_toDigits, String.toList_ofList,
    String.toList_ofList] at hdigits
  rw [← Nat.ofDigitChars_ten_toDigits (n := a), hdigits, Nat.ofDigitChars_ten_toDigits]

theorem tempName_injective : Function.Injective tempName := fun _ _ h =>
  repr_injective ((String.append_right_inj _).1 h)

/-- A list with the names of as many temporaries is as long. -/
theorem le_length_of_tempNames {l : List String}
    (h : ∀ i ∈ List.range' n k, tempName i ∈ l) : k ≤ l.length := by
  have hnodup : ((List.range' n k).map tempName).Nodup :=
    List.Nodup.map tempName_injective nodup_range'
  have hsub : (List.range' n k).map tempName ⊆ l := fun s hs => by
    obtain ⟨i, hi, rfl⟩ := mem_map.1 hs
    exact h i hi
  have hlen := (hnodup.subperm hsub).length_le
  rwa [length_map, length_range'] at hlen

/-- What is found is the first candidate that is free, and not all are taken. -/
theorem freeTemp_spec (taken : List String) (n : Nat) :
    (n ≤ freeTemp taken n ∧ freeTemp taken n ≤ n + taken.length) ∧
      tempName (freeTemp taken n) ∉ taken ∧
      ∀ i, n ≤ i → i < freeTemp taken n → tempName i ∈ taken := by
  unfold freeTemp
  cases h : (List.range' n (taken.length + 1)).find? fun i => !taken.contains (tempName i) with
  | some i =>
    obtain ⟨hfree, hi, hbefore⟩ := find?_range'_eq_some.1 h
    have hi := mem_range'_1.1 hi
    exact ⟨⟨hi.1, Nat.le_of_lt_succ hi.2⟩, by simpa using hfree, by simpa using hbefore⟩
  | none =>
    -- all candidates would be taken, and they are too many for that
    have hlen := le_length_of_tempNames (by simpa using h)
    exact absurd hlen (Nat.not_succ_le_self _)

/-- **Temporaries are new names.** -/
theorem tempName_freeTemp_not_mem (taken : List String) (n : Nat) :
    tempName (freeTemp taken n) ∉ taken :=
  (freeTemp_spec taken n).2.1

/-- **Slots of different names are different.** -/
theorem slotName_injective (h : slotName k n x = slotName k' n' x') : x = x' := by
  have hmark : ∀ k : ScopeKind, ∀ ch ∈ k.mark.toList, (ch != '_') = true := by
    intro k
    cases k <;> simp [ScopeKind.mark]
  have hdigits : ∀ n : Nat, ∀ ch ∈ (Nat.repr n).toList, (ch != '_') = true := by
    intro n ch hch
    rw [Nat.repr_eq_ofList_toDigits, String.toList_ofList] at hch
    rw [bne_iff_ne]
    rintro rfl
    exact Nat.underscore_not_in_toDigits hch
  have hdrop : ∀ (k : ScopeKind) (n : Nat) (x : String),
      (slotName k n x).toList.dropWhile (· != '_') = '_' :: x.toList := by
    intro k n x
    have htext : (slotName k n x).toList =
        (k.mark.toList ++ (Nat.repr n).toList) ++ '_' :: x.toList := by
      simp [slotName]
    rw [htext, dropWhile_append_of_pos (forall_mem_append.2 ⟨hmark k, hdigits n⟩)]
    rfl
  have htail : '_' :: x.toList = '_' :: x'.toList := by
    rw [← hdrop k n x, h, hdrop]
  exact String.toList_inj.1 (List.cons.inj htail).2

theorem resolve?_of_binding {s : Scopes} (h : s.binding x pos = .ok b) :
    s.resolve? x = some (.slot b) := by
  unfold binding at h
  split at h
  · cases h
    assumption
  · cases h

theorem eq_of_binding_error {s : Scopes} (h : s.binding x pos = .error e) :
    e = .unresolved x pos := by
  unfold binding at h
  split at h
  · cases h
  · exact (Except.error.inj h).symm

end Scopes

/-- A slot that a name resolves to is declared in an open scope. -/
theorem Scopes.mem_of_resolve? {s : Scopes} (h : s.resolve? x = some (.slot b)) :
    ∃ f ∈ s.frames, (x, b) ∈ f.vars := by
  unfold Scopes.resolve? at h
  split at h
  · rename_i r hr
    cases h
    obtain ⟨f, hf, hslot⟩ := exists_of_findSome?_eq_some hr
    refine ⟨f, hf, ?_⟩
    unfold Frame.resolve? at hslot
    split at hslot
    · cases hslot
    · split at hslot
      · cases hslot
      · obtain ⟨b', hb', hslot⟩ := Option.map_eq_some_iff.1 hslot
        cases hslot
        obtain ⟨l, l', hvars, -⟩ := lookup_eq_some_iff.1 hb'
        rw [hvars]
        exact mem_append.2 (.inr mem_cons_self)
  · -- what is settled by the script as a whole has no slot
    split at h
    · cases h
    · split at h
      · cases h
      · split at h <;> cases h

theorem Frame.resolve?_eq_none {f : Frame} : f.resolve? x = none ↔
    x ∉ f.loopVars ∧ x ∉ f.bound ∧ f.vars.lookup x = none := by
  unfold Frame.resolve?
  simp only [contains_iff_mem]
  split
  · simp_all
  · split <;> simp_all

end BarScript

import Mathlib.Data.Fintype.Pigeonhole

/-!
# Readings within a depth

The texts and snapshots of a value are read by recursion through its parts,
and the recursion carries a depth because a value may contain itself. This
file says why the depth does not matter: what is nested through finitely many
places either comes to an end within as many steps as there are places, or
never does. A reading with enough depth is therefore the same for every depth
from there on, and two heaps of different size read a value alike.
-/

namespace BarScript

open List

variable {V R : Type}

/-- A reading through the parts of a value, within a depth. -/
def readWithin (parts : V → List V) (out : V → List R → R) : (depth : Nat) → V → Option R
  | 0, _ => none
  | n + 1, v => out v <$> (parts v).mapM (readWithin parts out n)

/-- Whether the parts of a value come to an end within a depth. -/
def Shallow (parts : V → List V) : (depth : Nat) → V → Prop
  | 0, _ => False
  | n + 1, v => ∀ u ∈ parts v, Shallow parts n u

theorem mapM_congr_of_mem {f g : V → Option R} {l : List V} (h : ∀ v ∈ l, f v = g v) :
    l.mapM f = l.mapM g := by
  induction l with
  | nil => rfl
  | cons v l ih =>
    rw [mapM_cons, mapM_cons, h v mem_cons_self, ih fun u hu => h u (mem_cons_of_mem v hu)]

theorem mapM_isSome_iff {f : V → Option R} {l : List V} :
    (l.mapM f).isSome ↔ ∀ v ∈ l, (f v).isSome := by
  induction l with
  | nil => simp
  | cons v l ih =>
    rw [mapM_cons, forall_mem_cons, ← ih]
    cases f v with
    | none => simp
    | some r =>
      cases l.mapM f with
      | none => simp
      | some rs => simp

/-- What a list of readings has is read off some member. -/
theorem exists_of_mem_mapM {f : V → Option R} {l : List V} (h : l.mapM f = some rs)
    (hr : r ∈ rs) : ∃ v ∈ l, f v = some r := by
  induction l generalizing rs with
  | nil =>
    cases h
    cases hr
  | cons v l ih =>
    rw [mapM_cons] at h
    obtain ⟨a, ha, h⟩ := Option.bind_eq_some_iff.1 h
    obtain ⟨rest, hrest, h⟩ := Option.bind_eq_some_iff.1 h
    cases h
    rcases mem_cons.1 hr with rfl | hr
    · exact ⟨v, mem_cons_self, ha⟩
    · obtain ⟨u, hu, hur⟩ := ih hrest hr
      exact ⟨u, mem_cons_of_mem v hu, hur⟩

theorem mapM_map {U : Type} (f : V → Option R) (φ : U → V) (l : List U) :
    (l.map φ).mapM f = l.mapM fun u => f (φ u) := by
  induction l with
  | nil => rfl
  | cons u l ih => rw [map_cons, mapM_cons, mapM_cons, ih]

variable {parts : V → List V} {out : V → List R → R}

theorem Shallow.mono (hnk : n ≤ k) (h : Shallow parts n v) : Shallow parts k v := by
  induction n generalizing k v with
  | zero => exact h.elim
  | succ n ih =>
    obtain ⟨k, rfl⟩ := Nat.exists_eq_add_of_le' hnk
    exact fun u hu => ih (Nat.le_add_left n k) (h u hu)

theorem readWithin_isSome_iff : (readWithin parts out n v).isSome ↔ Shallow parts n v := by
  induction n generalizing v with
  | zero => simp [readWithin, Shallow]
  | succ n ih =>
    rw [readWithin, Option.map_eq_map, Option.isSome_map, mapM_isSome_iff]
    exact forall₂_congr fun u _ => ih

/-- A reading that succeeds is the same with more depth. -/
theorem readWithin_eq_of_shallow {n k : Nat} (hnk : n ≤ k) {v : V} (h : Shallow parts n v) :
    readWithin parts out k v = readWithin parts out n v := by
  induction n generalizing k v with
  | zero => exact h.elim
  | succ n ih =>
    obtain ⟨k, rfl⟩ := Nat.exists_eq_add_of_le' hnk
    show out v <$> (parts v).mapM (readWithin parts out (k + n)) = _
    rw [mapM_congr_of_mem fun u hu => ih (by omega) (h u hu)]
    rfl

/-- Along a chain of parts the depth goes down. -/
theorem Shallow.chain {f : Nat → V} (hf : ∀ i < n, f (i + 1) ∈ parts (f i)) (hn : i + k ≤ n)
    (h : Shallow parts (d + k) (f i)) : Shallow parts d (f (i + k)) := by
  induction k generalizing d with
  | zero => exact h
  | succ k ih =>
    have hk : Shallow parts (d + 1) (f (i + k)) := ih (by omega) (by rwa [Nat.add_right_comm])
    exact hk _ (hf (i + k) (by omega))

/-- What does not end within a depth has a chain of parts of this length. -/
theorem exists_chain_of_not_shallow (h : ¬ Shallow parts n v) :
    ∃ f : Nat → V, f 0 = v ∧ ∀ i < n, f (i + 1) ∈ parts (f i) := by
  induction n generalizing v with
  | zero => exact ⟨fun _ => v, rfl, fun i hi => absurd hi (Nat.not_lt_zero i)⟩
  | succ n ih =>
    obtain ⟨u, hu, hn⟩ : ∃ u ∈ parts v, ¬ Shallow parts n u := by
      simpa only [Shallow, not_forall, exists_prop] using h
    obtain ⟨f, hf, hchain⟩ := ih hn
    refine ⟨fun i => i.casesOn v f, rfl, fun i hi => ?_⟩
    cases i with
    | zero =>
      rw [← hf] at hu
      exact hu
    | succ i => exact hchain i (Nat.lt_of_succ_lt_succ hi)

section Places

/-! ## Finitely many places

`place` says at which of finitely many places a value has its parts; a value at
no place has none. What is asked of `place` is asked only of the values in `P`,
which the parts do not leave. -/

variable {N : Nat} {P : V → Prop} {place : V → Option (Fin N)}
  (hleaf : ∀ v, P v → place v = none → parts v = []) (hP : ∀ v, P v → ∀ u ∈ parts v, P u)

include hleaf hP

/-- A chain that is longer than there are places comes to one of them twice. -/
theorem exists_repeat_of_not_shallow (hv : P v) (h : ¬ Shallow parts (N + 1) v) :
    ∃ f : Nat → V, f 0 = v ∧ (∀ i < N + 1, f (i + 1) ∈ parts (f i)) ∧
      ∃ i j q, i < j ∧ j ≤ N ∧ (P (f i) ∧ place (f i) = some q) ∧
        P (f j) ∧ place (f j) = some q := by
  obtain ⟨f, rfl, hf⟩ := exists_chain_of_not_shallow h
  have hPf : ∀ i < N + 1, P (f i) := by
    intro i hi
    induction i with
    | zero => exact hv
    | succ i ih => exact hP (f i) (ih (by omega)) _ (hf i (by omega))
  have hplace : ∀ i : Fin (N + 1), ∃ q, place (f i) = some q := by
    intro i
    refine Option.ne_none_iff_exists'.1 fun hnone => ?_
    have hmem := hf i i.2
    rw [hleaf _ (hPf i i.2) hnone] at hmem
    cases hmem
  choose q hq using hplace
  obtain ⟨i, j, hij, heq⟩ := Fintype.exists_ne_map_eq_of_card_lt q (by simp)
  have hi := And.intro (hPf i i.2) (hq i)
  have hj := And.intro (hPf j j.2) (hq j)
  refine ⟨f, rfl, hf, ?_⟩
  rcases lt_or_gt_of_ne hij with hlt | hlt
  · exact ⟨i, j, q j, hlt, Nat.le_of_lt_succ j.2, heq ▸ hi, hj⟩
  · exact ⟨j, i, q i, hlt, Nat.le_of_lt_succ i.2, heq ▸ hj, hi⟩

variable (hsame : ∀ u v, P u → P v → place u = place v → parts u = parts v)

include hsame

/-- **Values nested through `N` places** come to an end within `N + 1` steps or
never. -/
theorem Shallow.bounded (hv : P v) (h : Shallow parts n v) : Shallow parts (N + 1) v := by
  by_contra hdeep
  obtain ⟨f, rfl, hf, i, j, q, hij, hj, ⟨hPi, hqi⟩, hPj, hqj⟩ :=
    exists_repeat_of_not_shallow hleaf hP hv hdeep
  have hparts := hsame _ _ hPi hPj (hqi.trans hqj.symm)
  -- a value with the parts of a value further down has no depth
  have hnever : ∀ d, ¬ Shallow parts d (f i) := by
    intro d
    induction d with
    | zero => exact id
    | succ d ih =>
      intro hd
      have hdown := (hd.mono (show d + 1 ≤ d + (j - i) by omega)).chain hf (by omega)
      rw [show i + (j - i) = j by omega] at hdown
      refine ih ?_
      cases d with
      | zero => exact hdown
      | succ d => exact fun u hu => hdown u (hparts ▸ hu)
  have hi := (h.mono (Nat.le_add_right n i)).chain hf (by omega)
  rw [Nat.zero_add] at hi
  exact hnever n hi

/-- **Enough depth is enough**: readings through `N` places are the same for
every depth beyond `N`. -/
theorem readWithin_eq_of_lt (hn : N < n) (hk : N < k) (hv : P v) :
    readWithin parts out n v = readWithin parts out k v := by
  by_cases h : Shallow parts (N + 1) v
  · rw [readWithin_eq_of_shallow hn h, readWithin_eq_of_shallow hk h]
  · have hnone : ∀ d, readWithin parts out d v = none := fun d => by
      rw [← Option.not_isSome_iff_eq_none, readWithin_isSome_iff]
      exact fun hd => h (hd.bounded hleaf hP hsame hv)
    rw [hnone n, hnone k]

end Places

end BarScript

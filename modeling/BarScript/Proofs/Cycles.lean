import BarScript.Proofs.Regime.Work
import Mathlib.Logic.Relation

/-!
# Values that contain themselves

Texts, copies and roundings of a value go down through what it contains. The heap has only
finitely many arrays and objects, so a reading that goes on for longer than there are any
has met one of them twice: there is an array or an object that contains itself.
-/

namespace BarScript

open Machine Relation

section Chains

variable {V : Type} {parts : V → List V}

theorem reflTransGen_chain {f : Nat → V} {i : Nat} (hf : ∀ i < n, f (i + 1) ∈ parts (f i))
    (hn : i + k ≤ n) : ReflTransGen (fun a b => b ∈ parts a) (f i) (f (i + k)) := by
  induction k with
  | zero => exact .refl
  | succ k ih => exact .tail (ih (by omega)) (hf (i + k) (by omega))

/-- What goes on for longer than there are places contains something that contains itself. -/
theorem exists_cycle_of_not_shallow {P : V → Prop} {place : V → Option (Fin N)}
    (hP : ∀ v, ∀ u ∈ parts v, P u) (hleaf : ∀ v, P v → place v = none → parts v = [])
    (hsame : ∀ u v i, place u = some i → place v = some i → u = v) (hv : P v)
    (h : ¬ Shallow parts (N + 1) v) : ∃ u, P u ∧ TransGen (fun a b => b ∈ parts a) u u := by
  obtain ⟨f, -, hf, i, j, q, hij, hj, ⟨hPi, hqi⟩, -, hqj⟩ :=
    exists_repeat_of_not_shallow hleaf (fun v _ => hP v) hv h
  obtain ⟨k, rfl⟩ := Nat.exists_eq_add_of_lt hij
  refine ⟨f i, hPi, TransGen.head' (hf i (by omega)) ?_⟩
  have hchain := reflTransGen_chain (i := i + 1) (k := k) hf (by omega)
  rw [Nat.add_right_comm, ← hsame _ _ _ hqi hqj] at hchain
  exact hchain

end Chains

namespace Heap

/-- An array or an object contains itself, at some depth. -/
def Cyclic (h : Heap) : Prop :=
  ∃ v, TransGen (fun a b => b ∈ h.contents a) v v

variable {h : Heap} (hs : h.Sound)

include hs

omit hs in
/-- A reading whose parts are no series and contained in what has them: if it goes on for
longer than there are places, something contains itself. -/
theorem cyclic_of_not_shallow (hplain : ∀ v, ∀ u ∈ parts v, ¬ u.IsSeries)
    (hparts : ∀ v, ¬ v.IsSeries → ∀ u ∈ parts v, u ∈ h.contents v) (hn : h.places + 2 ≤ n)
    (hv : ¬ Shallow parts n v) : h.Cyclic := by
  obtain ⟨n, rfl⟩ := Nat.exists_eq_add_of_le' (Nat.le_trans (Nat.le_add_left 1 _) hn)
  -- the value itself may be a series; its parts are none
  obtain ⟨u, hu, hdeep⟩ : ∃ u ∈ parts v, ¬ Shallow parts n u := by
    simpa only [Shallow, not_forall, exists_prop] using hv
  have hdeep : ¬ Shallow parts (h.places + 1) u := fun hs => hdeep (hs.mono (by omega))
  obtain ⟨w, hw, hcycle⟩ := exists_cycle_of_not_shallow (P := fun v => ¬ v.IsSeries) hplain
    (fun v hv (hnone : h.place? v = none) => List.eq_nil_iff_forall_not_mem.2 fun u hu => by
      have hmem := hparts v hv u hu
      rw [h.contents_eq_nil hnone] at hmem
      cases hmem)
    (fun _ _ _ => h.eq_of_place?_eq) (hplain v u hu) hdeep
  have hlift : ∀ b, TransGen (fun a b => b ∈ parts a) w b →
      TransGen (fun a b => b ∈ h.contents a) w b ∧ ¬ b.IsSeries := by
    intro b hb
    induction hb with
    | single hb => exact ⟨.single (hparts w hw _ hb), hplain w _ hb⟩
    | tail _ hb ih => exact ⟨ih.1.tail (hparts _ ih.2 _ hb), hplain _ _ hb⟩
  exact ⟨w, (hlift w hcycle).1⟩

omit hs in
theorem places_le_depthBound (h : Heap) : h.places + 2 ≤ h.depthBound := by
  unfold places depthBound
  omega

omit hs in
theorem not_shallow_of_eq_none {R : Type} {parts : Value → List Value} {out : Value → List R → R}
    (hnone : readWithin parts out n v = none) : ¬ Shallow parts n v := by
  have hiff : (readWithin parts out n v).isSome ↔ Shallow parts n v := readWithin_isSome_iff
  rw [← hiff, hnone]
  exact Bool.false_ne_true

/-- **What has no text or copy** shows that an array or an object contains itself. -/
theorem cyclic_of_unending (hv : h.Unending v) : h.Cyclic := by
  have hcontents : ∀ v, ∀ u ∈ h.contents v, ¬ u.IsSeries := fun _ _ => hs.contents
  -- what is no series is seen as it is
  have hseen : ∀ v, ¬ v.IsSeries → h.settle v = v := fun v hv => by
    rw [hs.settle_eq_current]
    cases v with
    | series r o => exact absurd trivial hv
    | _ => rfl
  have hdeep := h.places_le_depthBound
  rcases hv with hv | hv | hv | ⟨scale, hv⟩
  · have hdisplay : ∀ v, ∀ u ∈ h.displayParts v, u ∈ h.contents v := fun v u hu => by
      cases v with
      | array r => exact hu
      | _ => cases hu
    unfold display? at hv
    rw [displayWithin_eq] at hv
    refine cyclic_of_not_shallow (fun v u hu => hcontents _ u (hdisplay _ u hu))
      (fun v hv u hu => ?_)
      hdeep (not_shallow_of_eq_none hv)
    rw [hseen v hv] at hu
    exact hdisplay v u hu
  · unfold debug? at hv
    rw [debugWithin_eq] at hv
    exact cyclic_of_not_shallow hcontents (fun _ _ _ hu => hu) hdeep (not_shallow_of_eq_none hv)
  · unfold collapsed? at hv
    rw [snapshotWithin_eq] at hv
    refine cyclic_of_not_shallow (fun v u hu => hs.snapshotParts hu) (fun v hv u hu => ?_) hdeep
      (not_shallow_of_eq_none hv)
    rw [show h.seenAs true v = h.settle v from rfl, hseen v hv,
      h.snapshotParts_eq_contents hv] at hu
    exact hu
  · have hrounded : ∀ v, ∀ u ∈ roundedParts h v, u ∈ h.contents v := fun v u hu => by
      cases v with
      | array r =>
        obtain ⟨w, hw, rfl⟩ := List.mem_map.1 hu
        rw [← hs.settle_eq_current, hseen w (hs.array r w hw)]
        exact hw
      | _ => cases hu
    rw [rounded?_eq] at hv
    exact cyclic_of_not_shallow (fun v u hu => hcontents v u (hrounded v u hu))
      (fun v _ => hrounded v) hdeep (not_shallow_of_eq_none hv)

end Heap

end BarScript

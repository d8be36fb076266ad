import BarScript.Proofs.Simulation.Eval

/-!
# One machine, looked at twice

An invariant is a correspondence of a machine with itself. What it asks of values is one
thing in all cases: a function has the shape of the script, and what it sees is in order.
A correspondence that asks this and nothing else of values is a `Mirror`. Everything that
can be read off a machine then corresponds to itself, so that only the work of the
evaluator is left to be looked at.
-/

namespace BarScript

open Machine Correspondence

namespace Value

/-- What is asked of values: a function has a shape, and sees what it is to see. -/
def Fits (S : Shape) (sees : Env → Prop) : Value → Prop
  | .func f ρ => f.All S ∧ sees ρ
  | _ => True

variable {S : Shape} {sees sees' : Env → Prop} {v : Value}

theorem Fits.mono (h : ∀ ρ, sees ρ → sees' ρ) (hv : v.Fits S sees) : v.Fits S sees' := by
  cases v with
  | func f ρ => exact ⟨hv.1, h ρ hv.2⟩
  | _ => trivial

theorem fits_of_isFree (hv : v.IsFree) : v.Fits S sees := by
  cases v with
  | func f ρ => exact hv.elim
  | _ => trivial

theorem fits_of_isData (hv : Heap.IsData v) : v.Fits S sees := by
  cases v with
  | func f ρ => exact absurd rfl (hv.2 f ρ)
  | _ => trivial

theorem fits_view (d : Dict Ref) (name : String) : (Context.view d name).Fits S sees := by
  unfold Context.view
  cases d.get? name <;> trivial

end Value

/-- Entries that correspond are the same if their values are. -/
theorem entries_eq {P : Value → Value → Prop} (hP : ∀ v v', P v v' → v' = v)
    {l l' : List (String × Value)} (hl : List.Forall₂ (fun p q => p.1 = q.1 ∧ P p.2 q.2) l l') :
    l' = l ∧ ∀ p ∈ l, P p.2 p.2 := by
  induction hl with
  | nil => exact ⟨rfl, fun _ hp => by cases hp⟩
  | @cons p q l l' hpq _ ih =>
    obtain ⟨k, v⟩ := p
    obtain ⟨k', v'⟩ := q
    obtain ⟨rfl, hv⟩ := hpq
    obtain rfl := hP v v' hv
    exact ⟨by rw [ih.1], List.forall_mem_cons.2 ⟨hv, ih.2⟩⟩

/-- A correspondence of a machine with itself. -/
structure Mirror {W : Type} (C : Correspondence W) (sees : W → Env → Prop) : Prop where
  val : ∀ {w v v'}, C.val w v v' ↔ v' = v ∧ v.Fits C.shape (sees w)
  env : ∀ {w ρ ρ'}, C.env w ρ ρ' ↔ ρ' = ρ ∧ sees w ρ
  rel : ∀ {w m n}, C.rel w m n → n = m ∧ m.heap.Populated (Value.Fits C.shape (sees w))

namespace Mirror

variable {W : Type} {C : Correspondence W} {sees : W → Env → Prop} (M : Mirror C sees) {w : W}
  {m : Machine}

include M

theorem items_iff : C.Items w l l' ↔ l' = l ∧ ∀ v ∈ l, ¬ v.IsSeries ∧ v.Fits C.shape (sees w) := by
  constructor
  · intro hl
    induction hl with
    | nil => exact ⟨rfl, fun _ hv => by cases hv⟩
    | cons hv _ ih =>
      obtain ⟨hv, hns⟩ := hv
      obtain ⟨rfl, hfit⟩ := M.val.1 hv
      exact ⟨by rw [ih.1], List.forall_mem_cons.2 ⟨⟨hns, hfit⟩, ih.2⟩⟩
  · rintro ⟨rfl, hl⟩
    exact List.forall₂_same.2 fun v hv => ⟨M.val.2 ⟨rfl, (hl v hv).2⟩, (hl v hv).1⟩

def resemblance : Resemblance W where
  toCorrespondence := C
  alike hv := by
    obtain ⟨rfl, -⟩ := M.val.1 hv
    exact .refl _
  free hv := M.val.2 ⟨rfl, Value.fits_of_isFree hv⟩
  func hρ hf := by
    obtain ⟨rfl, hρ⟩ := M.env.1 hρ
    exact M.val.2 ⟨rfl, hf, hρ⟩
  func_inv hv := by
    obtain ⟨hv, hf, hρ⟩ := M.val.1 hv
    cases hv
    exact ⟨M.env.2 ⟨rfl, hρ⟩, hf⟩
  shifted hv k := by
    obtain ⟨hv, -⟩ := M.val.1 hv
    cases hv
    exact M.val.2 ⟨rfl, trivial⟩
  settle hmn hv := by
    obtain ⟨rfl, hm⟩ := M.rel hmn
    obtain ⟨rfl, hv⟩ := M.val.1 hv
    refine M.val.2 ⟨rfl, ?_⟩
    rw [hm.sound.settle_eq_current]
    exact hm.current trivial hv
  seriesValues hmn hv := by
    obtain ⟨rfl, hm⟩ := M.rel hmn
    obtain ⟨hv, -⟩ := M.val.1 hv
    cases hv
    refine M.items_iff.2 ⟨rfl, fun u hu => ?_⟩
    have hu := List.mem_of_mem_drop hu
    exact ⟨hm.sound.history _ u hu, hm.history _ u hu⟩
  arrayItems hmn hv := by
    obtain ⟨rfl, hm⟩ := M.rel hmn
    obtain ⟨hv, -⟩ := M.val.1 hv
    cases hv
    exact M.items_iff.2 ⟨rfl, fun u hu => ⟨hm.sound.array _ u hu, hm.array _ u hu⟩⟩
  objectEntries hmn hv := by
    obtain ⟨rfl, hm⟩ := M.rel hmn
    obtain ⟨hv, -⟩ := M.val.1 hv
    cases hv
    refine List.forall₂_same.2 fun p hp => ⟨rfl, ?_⟩
    have hp := List.mem_map_of_mem (f := Prod.snd) hp
    exact ⟨M.val.2 ⟨rfl, hm.object _ p.2 hp⟩, hm.sound.object _ p.2 hp⟩
  array_eq ha hb := by
    cases (M.val.1 ha).1
    cases (M.val.1 hb).1
    exact Iff.rfl
  object_eq ha hb := by
    cases (M.val.1 ha).1
    cases (M.val.1 hb).1
    exact Iff.rfl
  sound hmn := (M.rel hmn).2.sound
  depth hmn := by
    rw [(M.rel hmn).1]
    exact Likeness.places_lt_depthBound _
  lookup hmn hρ x := by
    obtain ⟨rfl, hm⟩ := M.rel hmn
    obtain ⟨rfl, -⟩ := M.env.1 hρ
    cases hx : Heap.lookup? _ _ x with
    | none => exact .none
    | some v => exact .some (M.val.2 ⟨rfl, hm.lookup? hx⟩)
  config hmn := by rw [(M.rel hmn).1]
  steps hmn := by rw [(M.rel hmn).1]
  kernels hmn := by rw [(M.rel hmn).1]
  dataSeries hmn x := by
    rw [(M.rel hmn).1]
    exact M.val.2 ⟨rfl, Value.fits_view _ x⟩
  slot hmn b x := by
    rw [(M.rel hmn).1]
    exact M.val.2 ⟨rfl, Value.fits_view _ x⟩

/-- Functions that keep items that fit, and agree on them, change an array of such a
machine alike: they may differ on items that do not fit, but there are none. -/
theorem modifyArray_eq (hm : C.rel w m m) (r : Ref) {f f' : Array Value → Array Value}
    (hf : ∀ a a' : Array Value, C.Items w a.toList a'.toList →
      C.Items w (f a).toList (f' a').toList) : m.heap.modifyArray r f' = m.heap.modifyArray r f ∧
      ∀ a : Array Value, (∀ v ∈ a.toList, ¬ v.IsSeries ∧ v.Fits C.shape (sees w)) →
        ∀ v ∈ (f a).toList, ¬ v.IsSeries ∧ v.Fits C.shape (sees w) := by
  have hm := (M.rel hm).2
  have hitems : ∀ a : Array Value, (∀ v ∈ a.toList, ¬ v.IsSeries ∧ v.Fits C.shape (sees w)) →
      f' a = f a ∧ ∀ v ∈ (f a).toList, ¬ v.IsSeries ∧ v.Fits C.shape (sees w) := fun a ha => by
    obtain ⟨heq, hfa⟩ := M.items_iff.1 (hf a a (M.items_iff.2 ⟨rfl, ha⟩))
    exact ⟨Array.toList_inj.1 heq, hfa⟩
  refine ⟨congrArg (fun arrays => { m.heap with arrays }) (Array.ext_getElem? fun j => ?_),
    fun a ha => (hitems a ha).2⟩
  rw [Array.getElem?_modify, Array.getElem?_modify]
  split
  · rename_i hj
    subst hj
    cases ha : m.heap.arrays[r]? with
    | none => rfl
    | some a =>
      have har : m.heap.array r = a := by
        rw [Heap.array, Array.getD_eq_getD_getElem?, ha]
        rfl
      exact congrArg some (hitems a fun v hv => by
        rw [← har] at hv
        exact ⟨hm.sound.array r v hv, hm.array r v hv⟩).1
  · rfl

section Names

variable {ρ ρ' : Env} {name : String} {v v' : Value} (hdefine : ∀ {w r v}, v.Fits C.shape (sees w) →
    C.Steady w same (Exec.modifyHeap fun h => h.define r name v))

include hdefine

theorem defineName_agree (hρ : C.env w ρ ρ') (hv : C.val w v v') :
    C.Agree w same (defineName ρ name v) (defineName ρ' name v') := by
  obtain ⟨rfl, -⟩ := M.env.1 hρ
  obtain ⟨rfl, hv⟩ := M.val.1 hv
  cases ρ' with
  | nil => exact agree_pure rfl
  | cons r ρ => exact hdefine hv

theorem assignName_agree (hρ : C.env w ρ ρ') (hv : C.val w v v') :
    C.Agree w same (assignName ρ name v) (assignName ρ' name v') := by
  obtain ⟨rfl, -⟩ := M.env.1 hρ
  refine (agree_heap_eq fun m n hmn => by rw [(M.rel hmn).1]).bind_same fun w₁ hw₁ r? => ?_
  obtain ⟨rfl, hv⟩ := M.val.1 (C.val_mono hw₁ hv)
  cases r? with
  | none => exact agree_fail _
  | some r => exact hdefine hv

end Names

end Mirror

end BarScript

import BarScript.Proofs.Simulation.Mirror

/-!
# Machines that keep their slots apart

The slots of a context are histories among others: the data, the arguments of
namespace calls and the slots themselves all name places on one heap, and views
of these places are handed around freely. What a slot holds is safe all the
same, as long as the script only ever writes the current bar of a history and
gives a slot no history but one made for it. This module says what such a
machine looks like and what running on it leaves alone.

* `Tame.Fits` is asked of every function on the heap: it has the shape of the script
  that runs, and it still sees the context under its name.
* `Tame.Orderly` is the invariant of a machine: all its functions fit, and no
  history has two names.
* `Tame.Grown` is what may change: histories keep their older bars, a new one
  has at most one bar, and a slot that is there keeps its history.
-/

namespace BarScript

open Machine Correspondence

/-- The history of a slot, as a script writes it. -/
def Expr.slotOf (id : Ident) (b : Bucket) (slot : String) : Expr :=
  .member (.member (.ident id) b.name) slot

namespace Tame

variable (root : String)

/-- What may be written to: a name other than the context's, and the current bar
of a slot. -/
inductive Target : Expr → Prop
  | name {id : Ident} (h : id.name ≠ root) : Target (.ident id)
  | slot {id : Ident} (h : id.name = root) (b : Bucket) (slot : String) :
    Target (.index (.slotOf id b slot) (.number 0.0))

/-- The assignments of a tame script: to a target, and the declaration of a
slot. -/
inductive Assignment : AssignOp → Expr → Expr → Prop
  | target (h : Target root target) : Assignment op target value
  | declared {id id' id'' : Ident} (h : id.name = root) (h' : id'.name = root)
    (h'' : id''.name = root) (b : Bucket) (slot : String) (e : Expr) :
    Assignment .assign (.slotOf id b slot)
      (.call (.member (.ident id') "init") [.slotOf id'' b slot, e])

/-- The shape of tame scripts: they write as above and bind no name that is the
context's. -/
def shape : Shape where
  expr
    | .assign op target value => Assignment root op target value
    | .update _ _ target => Target root target
    | _ => True
  name x := x ≠ root

/-- Some frame has the context under its name. -/
def Sees (h : Heap) (ρ : Env) : Prop :=
  ∃ r ∈ ρ, (h.frame r).get? root = some .context

variable (S : Shape)

/-- What is asked of values: a function has the shape of the script and sees the
context. -/
abbrev Fits (h : Heap) : Value → Prop :=
  Value.Fits S (Sees root h)

/-! ## The heap -/

/-- Every value on the heap fits, and no frame has anything but the context
under its name. -/
structure Tamed (h : Heap) : Prop extends h.Populated (Fits root S h) where
  context : ∀ r v, (h.frame r).get? root = some v → v = .context

/-- What may become of a heap: frames keep the context, histories keep their
older bars, and new histories have none. -/
structure Extends (h h' : Heap) : Prop where
  frame : ∀ r, (h.frame r).get? root = some .context → (h'.frame r).get? root = some .context
  size : h.histories.size ≤ h'.histories.size
  older : ∀ r < h.histories.size, (h'.history r).values.tail = (h.history r).values.tail
  filled : ∀ r < h.histories.size, (h.history r).values ≠ [] → (h'.history r).values ≠ []
  fresh : ∀ r, h.histories.size ≤ r → (h'.history r).values.tail = []

variable {root} {S} {h h' h'' : Heap} {ρ : Env} {v : Value}

theorem Sees.mono (hf : ∀ r, (h.frame r).get? root = some .context →
    (h'.frame r).get? root = some .context) (hρ : Sees root h ρ) : Sees root h' ρ := by
  obtain ⟨r, hr, hroot⟩ := hρ
  exact ⟨r, hr, hf r hroot⟩

theorem Fits.mono (hf : ∀ r, (h.frame r).get? root = some .context →
    (h'.frame r).get? root = some .context) (hv : Fits root S h v) : Fits root S h' v :=
  Value.Fits.mono (fun _ => Sees.mono hf) hv

theorem history_of_size_le (hr : h.histories.size ≤ r) : h.history r = {} := by
  unfold Heap.history
  rw [Array.getD_eq_getD_getElem?, Array.getElem?_eq_none hr]
  rfl

namespace Extends

theorem refl (h : Heap) : Extends root h h where
  frame _ hr := hr
  size := Nat.le_refl _
  older _ _ := rfl
  filled _ _ hr := hr
  fresh r hr := by
    rw [history_of_size_le hr]
    rfl

theorem trans (hab : Extends root h h') (hbc : Extends root h' h'') : Extends root h h'' where
  frame r hr := hbc.frame r (hab.frame r hr)
  size := Nat.le_trans hab.size hbc.size
  older r hr := (hbc.older r (Nat.lt_of_lt_of_le hr hab.size)).trans (hab.older r hr)
  filled r hr hne := hbc.filled r (Nat.lt_of_lt_of_le hr hab.size) (hab.filled r hr hne)
  fresh r hr := by
    rcases Nat.lt_or_ge r h'.histories.size with hlt | hge
    · rw [hbc.older r hlt, hab.fresh r hr]
    · exact hbc.fresh r hge

theorem of_histories (hh : h'.histories = h.histories)
    (hf : ∀ r, (h.frame r).get? root = some .context → (h'.frame r).get? root = some .context) :
    Extends root h h' := by
  have hhist : ∀ r, h'.history r = h.history r := fun r => by
    unfold Heap.history
    rw [hh]
  refine ⟨hf, ?_, fun r _ => ?_, fun r _ hne => ?_, fun r hr => ?_⟩
  · rw [hh]
  · rw [hhist]
  · rw [hhist]
    exact hne
  · rw [hhist, history_of_size_le hr]
    rfl

theorem newHistory {s : History Value} (hs : s.values.tail = []) :
    Extends root h (h.newHistory s).2 where
  frame _ hr := hr
  size := by
    show _ ≤ (h.histories.push s).size
    rw [Array.size_push]
    exact Nat.le_succ _
  older r hr := by
    rw [Heap.history_newHistory, if_neg (Nat.ne_of_lt hr)]
  filled r hr hne := by
    rw [Heap.history_newHistory, if_neg (Nat.ne_of_lt hr)]
    exact hne
  fresh r hr := by
    rw [Heap.history_newHistory]
    split
    · exact hs
    · rw [history_of_size_le hr]
      rfl

theorem modifyHistory {f : History Value → History Value}
    (hf : ∀ s, (f s).values.tail = s.values.tail) (hne : ∀ s, s.values ≠ [] → (f s).values ≠ []) :
    Extends root h (h.modifyHistory r f) where
  frame _ hr := hr
  size := by
    show _ ≤ (h.histories.modify r f).size
    rw [Array.size_modify]
  older q _ := by
    rw [Heap.history_modifyHistory]
    split
    · rename_i hq
      rw [hf, hq.1]
    · rfl
  filled q _ hq := by
    rw [Heap.history_modifyHistory]
    split
    · rename_i hr
      exact hne _ (hr.1 ▸ hq)
    · exact hq
  fresh q hq := by
    have hne : ¬ (r = q ∧ r < h.histories.size) := fun hr => Nat.not_lt.2 hq (hr.1 ▸ hr.2)
    rw [Heap.history_modifyHistory, if_neg hne, history_of_size_le hq]
    rfl

end Extends

/-! Frames keep the context under its name. -/

theorem frame_newFrame (d : Dict Value) (r : Ref) (hr : (h.frame r).get? root = some .context) :
    ((h.newFrame d).2.frame r).get? root = some .context := by
  rw [Heap.frame_newFrame]
  split
  · rename_i heq
    have hempty : h.frame r = .empty := by
      unfold Heap.frame
      rw [Array.getD_eq_getD_getElem?, Array.getElem?_eq_none (Nat.le_of_eq heq.symm)]
      rfl
    rw [hempty] at hr
    cases hr
  · exact hr

theorem frame_define (hname : name ≠ root) (r : Ref) (hr : (h.frame r).get? root = some .context) :
    ((h.define q name v).frame r).get? root = some .context := by
  rw [Heap.frame_define]
  split
  · rename_i hq
    rw [Dict.get?_insert_of_ne _ hname, hq.1]
    exact hr
  · exact hr

namespace Tamed

variable (ht : Tamed root S h)

include ht

theorem newHistory {s : History Value} (hs : ∀ v ∈ s.values, ¬ v.IsSeries ∧ Fits root S h v) :
    Tamed root S (h.newHistory s).2 :=
  ⟨ht.toPopulated.newHistory hs, ht.context⟩

theorem newArray {l : List Value} (hl : ∀ v ∈ l, ¬ v.IsSeries ∧ Fits root S h v) :
    Tamed root S (h.newArray l.toArray).2 :=
  ⟨ht.toPopulated.newArray hl, ht.context⟩

theorem newObject (hl : ∀ p ∈ l, ¬ p.2.IsSeries ∧ Fits root S h p.2) :
    Tamed root S (h.newObject (.ofList l)).2 := by
  refine ⟨ht.toPopulated.newObject (Dict.ordered_ofList l) fun v hv => ?_, ht.context⟩
  obtain ⟨p, hp, rfl⟩ := List.mem_map.1 (Dict.mem_values_ofList hv)
  exact hl p hp

theorem modifyHistory {f : History Value → History Value}
    (hf : ∀ s, ∀ v ∈ (f s).values, (¬ v.IsSeries ∧ Fits root S h v) ∨ v ∈ s.values) :
    Tamed root S (h.modifyHistory r f) :=
  ⟨ht.toPopulated.modifyHistory fun v hv => (hf _ v hv).elim id fun hv =>
    ⟨ht.sound.history r v hv, ht.history r v hv⟩, ht.context⟩

theorem setCurrent (hv : ¬ v.IsSeries) (hfit : Fits root S h v) :
    Tamed root S (h.modifyHistory r fun s => s.setCurrent v) := by
  refine ht.modifyHistory fun s u hu => ?_
  rcases History.mem_setCurrent hu with rfl | hu
  · exact .inl ⟨hv, hfit⟩
  · exact .inr hu

theorem modifyArray (hf : ∀ a : Array Value, (∀ v ∈ a.toList, ¬ v.IsSeries ∧ Fits root S h v) →
      ∀ v ∈ (f a).toList, ¬ v.IsSeries ∧ Fits root S h v) : Tamed root S (h.modifyArray r f) :=
  ⟨ht.toPopulated.modifyArray (hf _ fun v hv => ⟨ht.sound.array r v hv, ht.array r v hv⟩),
    ht.context⟩

theorem insertField (hv : ¬ v.IsSeries) (hfit : Fits root S h v) :
    Tamed root S (h.modifyObject r fun d => d.insert key v) :=
  ⟨ht.toPopulated.insertField hv hfit, ht.context⟩

/-- A new frame may have anything that fits, and under the name of the context
the context only. -/
theorem newFrame {d : Dict Value} (hd : ∀ v ∈ d.values, Fits root S h v)
    (hroot : ∀ v, d.get? root = some v → v = .context) : Tamed root S (h.newFrame d).2 := by
  refine ⟨(ht.toPopulated.newFrame hd).imp fun _ hv => hv.mono (frame_newFrame d), fun r v hv => ?_⟩
  rw [Heap.frame_newFrame] at hv
  split at hv
  · exact hroot v hv
  · exact ht.context r v hv

/-- A name other than the context's may be given any value that fits. -/
theorem define (hname : name ≠ root) (hv : Fits root S h v) : Tamed root S (h.define r name v) := by
  refine ⟨(ht.toPopulated.define hv).imp fun _ hu => hu.mono (frame_define hname), fun q u hu => ?_⟩
  rw [Heap.frame_define] at hu
  split at hu
  · rw [Dict.get?_insert_of_ne _ hname] at hu
    exact ht.context r u hu
  · exact ht.context q u hu

theorem lookup? (hρ : Sees root h ρ) : h.lookup? ρ root = some .context := by
  obtain ⟨r, hr, hroot⟩ := hρ
  induction ρ with
  | nil => cases hr
  | cons q ρ ih =>
    unfold Heap.lookup?
    cases hq : (h.frame q).get? root with
    | some v => rw [ht.context q v hq]
    | none =>
      rcases List.mem_cons.1 hr with rfl | hr
      · rw [hroot] at hq
        cases hq
      · exact ih hr

end Tamed

end Tame

end BarScript

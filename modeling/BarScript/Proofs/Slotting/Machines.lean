import BarScript.Proofs.Slotting.Layout
import BarScript.Proofs.Stability.Slots

/-!
# Machines in step

A flat script and its slotted form run side by side. The script keeps its names in
frames, and what a frame holds may be a series; the slotted form keeps most names
in slots, and a slot holds what a series shows. What the two machines still have in
common is all that a script can look at: the histories of the candles, arrays and
objects are the same, and each name has in one machine what it has in the other,
or what that shows on this bar.

No history of a candle changes while a bar runs, so the relation between values is
stated with these histories alone (`Shown`). The slots of the second machine have
histories of their own beyond them; a slot that an earlier bar has left behind is
among them, and nothing is said of its value until its declaration has run.
-/

namespace BarScript

open Machine List

namespace Slotting

/-! ## Two runs -/

section Runs

variable {α β γ δ : Type}

variable {R : α → β → Prop} {Q' : α → β → Machine → Machine → Prop}

/-- Two runs that end in the same way: with results and machines that satisfy `Q`,
or with one error. -/
inductive Together (Q : α → β → Machine → Machine → Prop) : Ending α → Ending β → Prop
  | ok (h : Q a b m n) : Together Q (.ok a m) (.ok b n)
  | error : Together Q (.error e m) (.error e n)

/-- Computations that end in the same way on all machines that satisfy `P`. -/
def Runs (P : Machine → Machine → Prop) (x : Exec α) (y : Exec β)
    (Q : α → β → Machine → Machine → Prop) : Prop :=
  ∀ m n, P m n → Together Q (x m) (y n)

variable {P : Machine → Machine → Prop} {Q : α → β → Machine → Machine → Prop} {x : Exec α}
  {y : Exec β}

theorem runs_pure (h : ∀ m n, P m n → Q a b m n) : Runs P (pure a) (pure b) Q :=
  fun m n hmn => .ok (h m n hmn)

theorem runs_fail (e : RuntimeError) : Runs P (Exec.fail e) (Exec.fail e) Q :=
  fun _ _ _ => .error

theorem Runs.bind {R : γ → δ → Machine → Machine → Prop} {f : α → Exec γ} {g : β → Exec δ}
    (h : Runs P x y Q) (hfg : ∀ a b, Runs (Q a b) (f a) (g b) R) :
    Runs P (x >>= f) (y >>= g) R := by
  intro m n hmn
  show Together R (EStateM.bind x f m) (EStateM.bind y g n)
  have hxy := h m n hmn
  unfold EStateM.bind
  generalize x m = s, y n = t at hxy ⊢
  cases hxy with
  | ok h => exact hfg _ _ _ _ h
  | error => exact .error

theorem Together.imp (h : Together Q s t) (hQ : ∀ a b m n, Q a b m n → Q' a b m n) :
    Together Q' s t := by
  cases h with
  | ok h => exact .ok (hQ _ _ _ _ h)
  | error => exact .error

theorem Runs.weaken (h : Runs P x y Q) (hQ : ∀ a b m n, Q a b m n → Q' a b m n) : Runs P x y Q' :=
  fun m n hmn => (h m n hmn).imp hQ

/-- What is known of the results is no matter of the machines. -/
theorem runs_of (h : A → Runs P x y Q) : Runs (fun m n => A ∧ P m n) x y Q :=
  fun m n hmn => h hmn.1 m n hmn.2

theorem runs_heap (h : ∀ m n, P m n → R (f m.heap) (g n.heap)) :
    Runs P (Exec.heap f) (Exec.heap g) fun a b m n => R a b ∧ P m n :=
  fun m n hmn => .ok ⟨h m n hmn, hmn⟩

theorem runs_heap? (h : ∀ m n, P m n → Option.Rel R (f m.heap) (g n.heap)) :
    Runs P (Exec.heap? f) (Exec.heap? g) fun a b m n => R a b ∧ P m n := by
  intro m n hmn
  rw [Exec.heap?_eq, Exec.heap?_eq]
  have hfg := h m n hmn
  generalize f m.heap = o, g n.heap = o' at hfg ⊢
  cases hfg with
  | some hab => exact .ok ⟨hab, hmn⟩
  | none => exact .error

end Runs

/-! ## Values -/

section Values

variable (D : Array (History Value))

/-- Whether a value shows no history but these. -/
def Visible : Value → Prop
  | .series r _ => r < D.size
  | _ => True

/-- What the slotted form has where the script has a value: the value, or what it
shows. -/
def Shown (v v' : Value) : Prop :=
  Visible D v ∧ (v' = v ∨ v' = Heap.current { histories := D } v)

variable {D}

theorem visible_of_not_series {v : Value} (hv : ¬ v.IsSeries) : Visible D v := by
  cases v with
  | series r o => exact absurd trivial hv
  | _ => trivial

theorem Visible.shown (hv : Visible D v) : Shown D v v :=
  ⟨hv, .inl rfl⟩

end Values

/-! ## Machines -/

/-- Whether the fields of candles have histories. -/
def Filled (m : Machine) : Prop :=
  ∀ candle, ∀ p ∈ candleFields candle, m.context.data.get? p.1 ≠ none

/-- Machines that have in common what a script can look at. The histories of the
first are `D`; those of the second beyond `D` are the histories of slots, one for
each. -/
structure Near (D : Array (History Value)) (m n : Machine) : Prop where
  histories : m.heap.histories = D
  shared : ∀ r < D.size, n.heap.history r = m.heap.history r
  size : D.size ≤ n.heap.histories.size
  arrays : n.heap.arrays = m.heap.arrays
  objects : n.heap.objects = m.heap.objects
  frames : n.heap.frames.size = m.heap.frames.size
  sound : m.heap.Sound
  sound' : n.heap.Sound
  unslotted : m.context.lets = .empty ∧ m.context.consts = .empty
  context : n.context = { m.context with lets := n.context.lets, consts := n.context.consts }
  filled : Filled m
  named : ∀ r ∈ m.context.named, r < D.size
  slots : ∀ k, ∀ r ∈ (n.context.slots k).values, D.size ≤ r ∧ r < n.heap.histories.size
  apart : ∀ k k' x x' r, (n.context.slots k).get? x = some r →
    (n.context.slots k').get? x' = some r → k = k' ∧ x = x'

namespace Near

variable {D : Array (History Value)} {m n : Machine} {v v' : Value}

theorem seriesGet (h : Near D m n) (hr : r < D.size) (o i : Nat) :
    n.heap.seriesGet r o i = m.heap.seriesGet r o i := by
  unfold Heap.seriesGet
  rw [h.shared r hr]

theorem current (h : Near D m n) (hv : Visible D v) : n.heap.current v = m.heap.current v := by
  cases v with
  | series r o => exact h.seriesGet hv o 0
  | _ => rfl

/-- What a value shows is a matter of the histories. -/
theorem current_eq (h : Near D m n) (v : Value) :
    Heap.current { histories := D } v = m.heap.current v := by
  cases v with
  | series r o =>
    rw [← h.histories]
    rfl
  | _ => rfl

theorem visible_current (h : Near D m n) (v : Value) : Visible D (m.heap.current v) :=
  visible_of_not_series (h.sound.current v)

end Near

/-- Machines near each other, as a correspondence in which values are the same. -/
def shared : Likeness (Array (History Value)) where
  shape := .any
  le D D' := D = D'
  refl _ := rfl
  trans := Eq.trans
  rel := Near
  val D v v' := v' = v ∧ Visible D v
  env _ ρ ρ' := ρ' = ρ
  val_mono hw h := hw ▸ h
  env_mono _ h := h
  alike h := h.1 ▸ .refl _
  free {D v} hv := ⟨rfl, by cases v <;> trivial⟩
  func hρ _ := ⟨congrArg _ hρ, trivial⟩
  func_inv {D f ρ ρ'} h := ⟨by cases h.1; rfl, f.all_any⟩
  shifted {D r r' o} h k := ⟨by cases h.1; rfl, h.2⟩
  settle {D m n v v'} hmn h := by
    obtain ⟨rfl, hv⟩ := h
    rw [hmn.sound.settle_eq_current, hmn.sound'.settle_eq_current]
    exact ⟨hmn.current hv, hmn.visible_current _⟩
  seriesValues {D m n r r' o} hmn h := by
    obtain ⟨heq, hr⟩ := h
    cases heq
    have hvalues : n.heap.seriesValues r o = m.heap.seriesValues r o := by
      unfold Heap.seriesValues
      rw [hmn.shared r hr]
    rw [hvalues]
    refine forall₂_same.2 fun v hv => ?_
    have hns := hmn.sound.history r v (mem_of_mem_drop hv)
    exact ⟨⟨rfl, visible_of_not_series hns⟩, hns⟩
  arrayItems {D m n r r'} hmn h := by
    cases h.1
    unfold Heap.array
    rw [hmn.arrays]
    refine forall₂_same.2 fun v hv => ?_
    have hns := hmn.sound.array r v hv
    exact ⟨⟨rfl, visible_of_not_series hns⟩, hns⟩
  objectEntries {D m n r r'} hmn h := by
    cases h.1
    unfold Heap.object
    rw [hmn.objects]
    refine forall₂_same.2 fun p hp => ?_
    have hns := hmn.sound.object r p.2 (mem_map_of_mem hp)
    exact ⟨rfl, ⟨rfl, visible_of_not_series hns⟩, hns⟩
  array_eq ha hb := by
    cases ha.1
    cases hb.1
    rfl
  object_eq ha hb := by
    cases ha.1
    cases hb.1
    rfl
  sound hmn := hmn.sound
  depth {D m n} hmn := by
    unfold Heap.places Heap.depthBound
    rw [hmn.arrays, hmn.objects]
    omega

/-! ## Readings -/

section Readings

variable {D : Array (History Value)} {m n : Machine} {v v' u u' : Value}

theorem current_of_not_series {h : Heap} (hv : ¬ v.IsSeries) : h.current v = v := by
  cases v with
  | series r o => exact absurd trivial hv
  | _ => rfl

section Sound

variable {h : Heap} (hs : h.Sound)

include hs

theorem current_current (v : Value) : h.current (h.current v) = h.current v :=
  current_of_not_series (hs.current v)

theorem settle_current (v : Value) : h.settle (h.current v) = h.settle v := by
  rw [hs.settle_eq_current, hs.settle_eq_current, current_current hs]

theorem number_current (v : Value) : h.number (h.current v) = h.number v := by
  unfold Heap.number
  rw [settle_current hs]

theorem truthy_current (v : Value) : h.truthy (h.current v) = h.truthy v := by
  unfold Heap.truthy
  rw [settle_current hs]

theorem settles_current (v : Value) (op : LogicalOp) :
    h.settles op (h.current v) = h.settles op v := by
  unfold Heap.settles
  rw [truthy_current hs, current_current hs]

theorem unary_current (v : Value) (op : UnaryOp) : h.unary op (h.current v) = h.unary op v := by
  unfold Heap.unary
  rw [truthy_current hs, number_current hs]

theorem binary?_current (v : Value) (op : BinaryOp) (u : Value) :
    h.binary? op (h.current v) (h.current u) = h.binary? op v u := by
  unfold Heap.binary?
  rw [current_current hs, current_current hs]

theorem collapsed?_current (v : Value) : h.collapsed? (h.current v) = h.collapsed? v := by
  unfold Heap.collapsed? Heap.depthBound Heap.snapshotWithin
  rw [if_pos rfl, if_pos rfl, settle_current hs]

end Sound

theorem Shown.current (hmn : Near D m n) (hv : Shown D v v') :
    n.heap.current v' = m.heap.current v := by
  obtain ⟨hv, rfl | rfl⟩ := hv
  · exact hmn.current hv
  · rw [hmn.current_eq, current_of_not_series (hmn.sound.current v)]

theorem Shown.visible (hmn : Near D m n) (hv : Shown D v v') : Visible D v' := by
  obtain ⟨hv, rfl | rfl⟩ := hv
  · exact hv
  · exact hmn.current_eq v ▸ hmn.visible_current v

theorem Shown.settled (hmn : Near D m n) (hv : Shown D v v') : Shown D v (n.heap.current v') :=
  ⟨hv.1, .inr ((hv.current hmn).trans (hmn.current_eq v).symm)⟩

theorem Shown.held (hmn : Near D m n) (hv : Shown D v v') :
    shared.val D (m.heap.current v) (n.heap.current v') :=
  ⟨hv.current hmn, hmn.visible_current v⟩

theorem Shown.number (hmn : Near D m n) (hv : Shown D v v') :
    m.heap.number v = n.heap.number v' := by
  rw [← number_current hmn.sound, ← number_current hmn.sound']
  exact shared.number_eq hmn (hv.held hmn)

theorem Shown.truthy (hmn : Near D m n) (hv : Shown D v v') :
    m.heap.truthy v = n.heap.truthy v' := by
  rw [← truthy_current hmn.sound, ← truthy_current hmn.sound']
  exact shared.truthy_eq hmn (hv.held hmn)

theorem Shown.settles (hmn : Near D m n) (hv : Shown D v v') (op : LogicalOp) :
    m.heap.settles op v = n.heap.settles op v' := by
  rw [← settles_current hmn.sound, ← settles_current hmn.sound']
  exact shared.settles_eq hmn (hv.held hmn) op

theorem Shown.collapsed (hmn : Near D m n) (hv : Shown D v v') :
    m.heap.collapsed? v = n.heap.collapsed? v' := by
  rw [← collapsed?_current hmn.sound, ← collapsed?_current hmn.sound']
  exact shared.collapsed?_eq hmn (hv.held hmn)

theorem shown_of_val (h : shared.val D v v') : Shown D v v' :=
  ⟨h.2, .inl h.1⟩

theorem Shown.unary (hmn : Near D m n) (hv : Shown D v v') (op : UnaryOp) :
    Shown D (m.heap.unary op v) (n.heap.unary op v') := by
  rw [← unary_current hmn.sound, ← unary_current hmn.sound']
  exact shown_of_val (shared.unary_val hmn (hv.held hmn) op)

theorem Shown.binary (hmn : Near D m n) (hv : Shown D v v') (hu : Shown D u u') (op : BinaryOp) :
    Option.Rel (Shown D) (m.heap.binary? op v u) (n.heap.binary? op v' u') := by
  rw [← binary?_current hmn.sound, ← binary?_current hmn.sound']
  have h := shared.binary?_rel hmn op (hv.held hmn) (hu.held hmn)
  generalize m.heap.binary? op _ _ = o, n.heap.binary? op _ _ = o' at h ⊢
  cases h with
  | none => exact .none
  | some h => exact .some (shown_of_val h)

end Readings

/-! ## Names -/

/-- Whether a slot has a value on this bar. -/
def Holds (n : Machine) (b : Binding) (v : Value) : Prop :=
  ∃ r, (n.context.slots b.bucket).get? b.slot = some r ∧ n.heap.seriesGet r 0 0 = v

/-- Where a name is kept, and what a frame of either machine has under it. -/
inductive Kept (D : Array (History Value)) (n : Machine) (x : String) :
    Option Home → Option Value → Option Value → Prop
  | unknown : Kept D n x none none none
  | context : Kept D n x (some .context) (some .context) (some .context)
  | frame {v v' : Value} (hv : Shown D v v') : Kept D n x (some .frame) (some v) (some v')
  | slot {b : Binding} {v v' : Value} (hb : b.slot = Scopes.slotName b.scope b.serial x)
    (hv : Shown D v v') (h : Holds n b v') : Kept D n x (some (.slot b)) (some v) none

/-- A frame that keeps the names of a layout. -/
structure Framed (D : Array (History Value)) (m n : Machine) (r : Ref) (L : Names) : Prop where
  lt : r < m.heap.frames.size
  kept : ∀ x, Kept D n x (L.lookup x) ((m.heap.frame r).get? x) ((n.heap.frame r).get? x)

/-- Frames that keep the names of a layout, each name in one of them. -/
inductive Frames (D : Array (History Value)) (m n : Machine) : Env → Layout → Prop
  | nil : Frames D m n [] []
  | cons {r : Ref} {ρ : Env} {L : Names} {T : Layout} (h : Framed D m n r L) (hr : r ∉ ρ)
    (hL : ∀ x, L.lookup x ≠ none → home? T x = none) (hs : Frames D m n ρ T) :
    Frames D m n (r :: ρ) (L :: T)

theorem home?_of_lookup {L : Names} (hx : L.lookup x = some h) : home? (L :: T) x = some h := by
  unfold home?
  rw [findSome?_cons, hx]

theorem home?_of_lookup_none {L : Names} (hx : L.lookup x = none) :
    home? (L :: T) x = home? T x := by
  unfold home?
  rw [findSome?_cons, hx]

/-- What changes if a name is given a value in a frame: nothing else. -/
structure Touches (r : Ref) (x : String) (m n m' n' : Machine) : Prop where
  size : m'.heap.frames.size = m.heap.frames.size
  left : ∀ q y, ¬ (q = r ∧ y = x) → (m'.heap.frame q).get? y = (m.heap.frame q).get? y
  right : ∀ q y, ¬ (q = r ∧ y = x) → (n'.heap.frame q).get? y = (n.heap.frame q).get? y
  slots : ∀ y, y ≠ x → ∀ b v, b.slot = Scopes.slotName b.scope b.serial y →
    Holds n b v → Holds n' b v

section Frames

variable {D : Array (History Value)} {m n m' n' : Machine} {x : String} {ρ : Env} {T : Layout}
  {L : Names} {r q : Ref} {h : Home}

variable {o o' : Option Value}

theorem Kept.mono (h : Kept D n x h? o o')
    (hn : h? ≠ none → ∀ b v, b.slot = Scopes.slotName b.scope b.serial x →
      Holds n b v → Holds n' b v) : Kept D n' x h? o o' := by
  cases h with
  | unknown => exact .unknown
  | context => exact .context
  | frame hv => exact .frame hv
  | slot hb hv h => exact .slot hb hv (hn (Option.some_ne_none _) _ _ hb h)

theorem Kept.of_unknown (h : Kept D n x none o o') : o = none ∧ o' = none := by
  cases h
  exact ⟨rfl, rfl⟩

theorem Kept.of_known (h : Kept D n x (some k) o o') : ∃ v, o = some v := by
  cases h <;> exact ⟨_, rfl⟩

theorem Kept.of_frame (h : Kept D n x (some .frame) o o') : ∃ v', o' = some v' := by
  cases h
  exact ⟨_, rfl⟩

theorem Kept.of_slot (h : Kept D n x (some (.slot b)) o o') : o' = none := by
  cases h
  rfl

theorem Kept.of_context (h : Kept D n x (some .context) o o') :
    o = some .context ∧ o' = some .context := by
  cases h
  exact ⟨rfl, rfl⟩

theorem Framed.mono (h : Framed D m n q L) (hsize : m.heap.frames.size ≤ m'.heap.frames.size)
    (hm : ∀ y, (m'.heap.frame q).get? y = (m.heap.frame q).get? y)
    (hn : ∀ y, (n'.heap.frame q).get? y = (n.heap.frame q).get? y)
    (hslots : ∀ y, L.lookup y ≠ none → ∀ b v, b.slot = Scopes.slotName b.scope b.serial y →
      Holds n b v → Holds n' b v) : Framed D m' n' q L where
  lt := Nat.lt_of_lt_of_le h.lt hsize
  kept y := by
    rw [hm, hn]
    exact (h.kept y).mono (hslots y)

theorem Frames.mono (hs : Frames D m n ρ T) (hsize : m.heap.frames.size ≤ m'.heap.frames.size)
    (hm : ∀ q ∈ ρ, q < m.heap.frames.size → ∀ y, (m'.heap.frame q).get? y = (m.heap.frame q).get? y)
    (hn : ∀ q ∈ ρ, q < m.heap.frames.size → ∀ y, (n'.heap.frame q).get? y = (n.heap.frame q).get? y)
    (hslots : ∀ y, home? T y ≠ none → ∀ b v, b.slot = Scopes.slotName b.scope b.serial y →
      Holds n b v → Holds n' b v) : Frames D m' n' ρ T := by
  induction hs with
  | nil => exact .nil
  | @cons r ρ L T h hr hL hs ih =>
    refine .cons (h.mono hsize (hm r mem_cons_self h.lt) (hn r mem_cons_self h.lt) ?_)
      hr hL (ih (fun q hq => hm q (mem_cons_of_mem _ hq))
        (fun q hq => hn q (mem_cons_of_mem _ hq)) ?_)
    · intro y hy
      obtain ⟨h, hy⟩ := Option.ne_none_iff_exists'.1 hy
      exact hslots y (by rw [home?_of_lookup hy]; exact Option.some_ne_none _)
    · intro y hy
      cases hlookup : L.lookup y with
      | none => exact hslots y (by rwa [home?_of_lookup_none hlookup])
      | some h => exact absurd (hL y (by rw [hlookup]; exact Option.some_ne_none _)) hy

theorem Frames.lookup (hs : Frames D m n ρ T) (x : String) :
    Kept D n x (home? T x) (m.heap.lookup? ρ x) (n.heap.lookup? ρ x) := by
  induction hs with
  | nil => exact .unknown
  | @cons r ρ L T h hr hL hs ih =>
    have hx := h.kept x
    unfold Heap.lookup?
    cases hlookup : L.lookup x with
    | none =>
      rw [hlookup] at hx
      rw [home?_of_lookup_none hlookup, hx.of_unknown.1, hx.of_unknown.2]
      exact ih
    | some home =>
      rw [hL x (by rw [hlookup]; exact Option.some_ne_none _)] at ih
      rw [hlookup] at hx
      rw [home?_of_lookup hlookup]
      revert hx
      generalize (m.heap.frame r).get? x = o
      generalize (n.heap.frame r).get? x = o'
      intro hx
      cases hx with
      | context => exact .context
      | frame hv => exact .frame hv
      | slot hb hv h =>
        -- no frame further out has the name of a slot
        rw [ih.of_unknown.2]
        exact .slot hb hv h

theorem Frames.frameOf (hs : Frames D m n ρ T) (hx : home? T x = some h) :
    ∃ r ∈ ρ, m.heap.frameOf? ρ x = some r ∧ r < m.heap.frames.size ∧
      Kept D n x (some h) ((m.heap.frame r).get? x) ((n.heap.frame r).get? x) ∧
      (h = .frame → n.heap.frameOf? ρ x = some r) := by
  induction hs with
  | nil => cases hx
  | @cons r ρ L T hf hr hL hs ih =>
    have hkept := hf.kept x
    unfold Heap.frameOf?
    cases hlookup : L.lookup x with
    | none =>
      rw [home?_of_lookup_none hlookup] at hx
      obtain ⟨q, hq, hm, hlt, hkept', hn⟩ := ih hx
      rw [hlookup] at hkept
      rw [hkept.of_unknown.1, hkept.of_unknown.2]
      exact ⟨q, mem_cons_of_mem _ hq, hm, hlt, hkept', hn⟩
    | some home =>
      rw [home?_of_lookup hlookup] at hx
      cases hx
      rw [hlookup] at hkept
      refine ⟨r, mem_cons_self, ?_, hf.lt, hkept, ?_⟩
      · obtain ⟨v, hv⟩ := hkept.of_known
        rw [hv]
      · rintro rfl
        obtain ⟨v', hv'⟩ := hkept.of_frame
        rw [hv']

theorem Frames.head_lt (hs : Frames D m n (r :: ρ) T) : r < m.heap.frames.size := by
  cases hs with
  | cons hf => exact hf.lt

/-- The innermost frame has no name that is unknown. -/
theorem Frames.head_unknown (hs : Frames D m n (r :: ρ) (L :: T)) (hx : home? (L :: T) x = none) :
    (n.heap.frame r).get? x = none := by
  cases hs with
  | cons hf =>
    have hkept := hf.kept x
    cases hlookup : L.lookup x with
    | none =>
      rw [hlookup] at hkept
      exact hkept.of_unknown.2
    | some home =>
      rw [home?_of_lookup hlookup] at hx
      cases hx

theorem Frames.lt (hs : Frames D m n ρ T) : ∀ q ∈ ρ, q < m.heap.frames.size := by
  induction hs with
  | nil => exact fun _ hq => nomatch hq
  | cons hf _ _ _ ih => exact forall_mem_cons.2 ⟨hf.lt, ih⟩

theorem Frames.touch (hs : Frames D m n ρ T) (ht : Touches r x m n m' n') (hr : r ∉ ρ)
    (hx : home? T x = none) : Frames D m' n' ρ T := by
  have hne : ∀ q ∈ ρ, ∀ y, ¬ (q = r ∧ y = x) := fun q hq y hqy => hr (hqy.1 ▸ hq)
  refine hs.mono (Nat.le_of_eq ht.size.symm) (fun q hq _ y => ht.left q y (hne q hq y))
    (fun q hq _ y => ht.right q y (hne q hq y)) fun y hy => ht.slots y ?_
  rintro rfl
  exact hy hx

/-- The frame that has a name, once its value has changed. -/
theorem Framed.touch (hf : Framed D m n r L) (ht : Touches r x m n m' n')
    (hkept : Kept D n' x (L.lookup x) ((m'.heap.frame r).get? x) ((n'.heap.frame r).get? x)) :
    Framed D m' n' r L where
  lt := ht.size ▸ hf.lt
  kept y := by
    by_cases hy : y = x
    · exact hy ▸ hkept
    · rw [ht.left r y (hy ·.2), ht.right r y (hy ·.2)]
      exact (hf.kept y).mono fun _ => ht.slots y hy

/-- **Assigning to a name** keeps the frames, if the machines agree on its new
value. -/
theorem Frames.assign (hs : Frames D m n ρ T) (hx : home? T x = some h)
    (hr : m.heap.frameOf? ρ x = some r) (ht : Touches r x m n m' n')
    (hkept : Kept D n' x (some h) ((m'.heap.frame r).get? x) ((n'.heap.frame r).get? x)) :
    Frames D m' n' ρ T := by
  induction hs with
  | nil => cases hx
  | @cons q ρ L T hf hq hL hs ih =>
    have hhere := hf.kept x
    unfold Heap.frameOf? at hr
    cases hlookup : L.lookup x with
    | none =>
      -- the name belongs to a frame further out
      rw [home?_of_lookup_none hlookup] at hx
      rw [hlookup] at hhere
      rw [hhere.of_unknown.1] at hr
      obtain ⟨r', hmem, hr', -⟩ := hs.frameOf hx
      have hqr : q ≠ r := by
        rintro rfl
        rw [show m.heap.frameOf? ρ x = some q from hr] at hr'
        cases hr'
        exact hq hmem
      refine .cons (hf.mono (Nat.le_of_eq ht.size.symm) (fun y => ht.left q y (hqr ·.1))
        (fun y => ht.right q y (hqr ·.1)) fun y hy => ht.slots y ?_) hq hL (ih hx hr)
      rintro rfl
      exact hy hlookup
    | some home =>
      rw [home?_of_lookup hlookup] at hx
      cases hx
      rw [hlookup] at hhere
      obtain ⟨v, hv⟩ := hhere.of_known
      rw [hv] at hr
      cases hr
      refine .cons (hf.touch ht (hlookup ▸ hkept)) hq hL (hs.touch ht hq (hL x ?_))
      rw [hlookup]
      exact Option.some_ne_none _

/-- **Declaring a name** adds it to the innermost frame. -/
theorem Frames.declare (hs : Frames D m n (r :: ρ) (L :: T)) (hx : home? (L :: T) x = none)
    (ht : Touches r x m n m' n')
    (hkept : Kept D n' x (some h) ((m'.heap.frame r).get? x) ((n'.heap.frame r).get? x)) :
    Frames D m' n' (r :: ρ) (((x, h) :: L) :: T) := by
  cases hs with
  | cons hf hr hL hs =>
    have hnew : L.lookup x = none ∧ home? T x = none := by
      cases hlookup : L.lookup x with
      | none => exact ⟨rfl, (home?_of_lookup_none hlookup).symm.trans hx⟩
      | some home =>
        rw [home?_of_lookup hlookup] at hx
        cases hx
    refine .cons ⟨ht.size ▸ hf.lt, fun y => ?_⟩ hr (fun y hy => ?_) (hs.touch ht hr hnew.2)
    · rw [lookup_cons]
      by_cases hy : y = x
      · subst hy
        rw [beq_self_eq_true]
        exact hkept
      · rw [beq_false_of_ne hy, ht.left r y (hy ·.2), ht.right r y (hy ·.2)]
        exact (hf.kept y).mono fun _ => ht.slots y hy
    · by_cases hyx : y = x
      · exact hyx ▸ hnew.2
      · rw [lookup_cons, beq_false_of_ne hyx] at hy
        exact hL y hy

end Frames

end Slotting

end BarScript

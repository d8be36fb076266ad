import BarScript.Proofs.Slotting.Machines

/-!
# What keeps machines in step

One lemma for each operation on names that a script and its slotted form do at the
same time. Where the script assigns to a frame, the slotted form assigns to the same
frame or to the current bar of a slot; where the script declares a name, it declares
a slot. All other work is the same on both sides.
-/

namespace BarScript

open Machine Slotted
open Context (slot slots_setSlot view)

namespace Slotting

/-! ## One operation on the heap or the context -/

section Near

variable {D : Array (History Value)} {m n : Machine} {k : Bucket} {slot : String} {r q : Ref}
  {u v : Value} {b : Binding}

theorem Near.of_heaps (hmn : Near D m n) {h h' : Heap} (hh : h.histories = m.heap.histories)
    (hh' : h'.histories = n.heap.histories) (ha : h'.arrays = h.arrays)
    (ho : h'.objects = h.objects) (hf : h'.frames.size = h.frames.size) (hs : h.Sound)
    (hs' : h'.Sound) : Near D { m with heap := h } { n with heap := h' } := { hmn with
  histories := hh.trans hmn.histories
  shared r hr := by
    show h'.history r = h.history r
    unfold Heap.history
    rw [hh, hh']
    exact hmn.shared r hr
  size := hh' ▸ hmn.size
  arrays := ha
  objects := ho
  frames := hf
  sound := hs
  sound' := hs'
  slots k r hr := by
    show _ ∧ r < h'.histories.size
    rw [hh']
    exact hmn.slots k r hr }

theorem Near.newHistory (hmn : Near D m n) {s : History Value} (hs : ∀ v ∈ s.values, ¬ v.IsSeries) :
    Near D m { n with heap := (n.heap.newHistory s).2 } := { hmn with
  shared r hr := by
    show (n.heap.newHistory s).2.history r = _
    rw [Heap.history_newHistory, if_neg (Nat.ne_of_lt (Nat.lt_of_lt_of_le hr hmn.size))]
    exact hmn.shared r hr
  size := by
    show _ ≤ (n.heap.histories.push s).size
    rw [Array.size_push]
    exact Nat.le_succ_of_le hmn.size
  sound' := hmn.sound'.newHistory hs
  slots k r hr := by
    show _ ∧ r < (n.heap.histories.push s).size
    rw [Array.size_push]
    exact (hmn.slots k r hr).imp_right Nat.lt_succ_of_lt }

theorem Near.modifySlot (hmn : Near D m n) (hr : D.size ≤ r) {f : History Value → History Value}
    (hf : ∀ s, (∀ v ∈ s.values, ¬ v.IsSeries) → ∀ v ∈ (f s).values, ¬ v.IsSeries) :
    Near D m { n with heap := n.heap.modifyHistory r f } := { hmn with
  shared q hq := by
    have hne : r ≠ q := (Nat.lt_of_lt_of_le hq hr).ne'
    show (n.heap.modifyHistory r _).history q = _
    rw [Heap.history_modifyHistory, if_neg (hne ·.1)]
    exact hmn.shared q hq
  size := by
    show _ ≤ (n.heap.histories.modify r _).size
    rw [Array.size_modify]
    exact hmn.size
  sound' := hmn.sound'.modifyHistory hf
  slots k q hq := by
    show _ ∧ q < (n.heap.histories.modify r _).size
    rw [Array.size_modify]
    exact hmn.slots k q hq }

theorem setCurrent_held (hu : ¬ u.IsSeries) (s : History Value)
    (hs : ∀ v ∈ s.values, ¬ v.IsSeries) : ∀ v ∈ (s.setCurrent u).values, ¬ v.IsSeries := by
  intro v hv
  rcases History.mem_setCurrent hv with rfl | hv
  · exact hu
  · exact hs v hv

theorem Near.setSlot (hmn : Near D m n) (k : Bucket) (slot : String)
    (hr : D.size ≤ r ∧ r < n.heap.histories.size)
    (hown : ∀ k' x, (n.context.slots k').get? x = some r → k = k' ∧ slot = x) :
    Near D m { n with context := n.context.setSlot k slot r } := { hmn with
  sound' := hmn.sound'
  context := by
    have hc := hmn.context
    cases k with
    | «let» =>
      exact congrArg (fun c : Context => { c with lets := n.context.lets.insert slot r }) hc
    | const =>
      exact congrArg (fun c : Context => { c with consts := n.context.consts.insert slot r }) hc
  slots k' q hq := by
    have hq : q ∈ ((n.context.setSlot k slot r).slots k').values := hq
    rw [slots_setSlot] at hq
    split at hq
    · rcases Dict.mem_values_insert hq with rfl | hq
      · exact hr
      · exact hmn.slots k q hq
    · exact hmn.slots k' q hq
  apart k₁ k₂ x₁ x₂ q h₁ h₂ := by
    -- a slot is the new one or was there before
    have hcases : ∀ k' x, ((n.context.setSlot k slot r).slots k').get? x = some q →
        (k = k' ∧ slot = x ∧ q = r) ∨ (n.context.slots k').get? x = some q := by
      intro k' x h
      rw [slots_setSlot] at h
      split at h
      · rename_i hk
        rcases (Dict.get?_insert_eq_some_iff _ _ _ _ _).1 h with ⟨hx, hq⟩ | ⟨-, h⟩
        · exact .inl ⟨hk, hx, hq.symm⟩
        · exact .inr (hk ▸ h)
      · exact .inr h
    rcases hcases k₁ x₁ h₁ with ⟨rfl, rfl, rfl⟩ | hold₁
    · rcases hcases k₂ x₂ h₂ with ⟨rfl, rfl, -⟩ | hold₂
      · exact ⟨rfl, rfl⟩
      · exact hown k₂ x₂ hold₂
    · rcases hcases k₂ x₂ h₂ with ⟨rfl, rfl, rfl⟩ | hold₂
      · exact ⟨(hown k₁ x₁ hold₁).1.symm, (hown k₁ x₁ hold₁).2.symm⟩
      · exact hmn.apart k₁ k₂ x₁ x₂ q hold₁ hold₂ }

/-! ## The values of slots -/

theorem seriesGet_of_history {h h' : Heap} (hq : h'.history q = h.history q) (o i : Nat) :
    h'.seriesGet q o i = h.seriesGet q o i := by
  unfold Heap.seriesGet
  rw [hq]

theorem get?_setCurrent (s : History Value) (u : Value) : (s.setCurrent u).get? 0 = some u := by
  obtain ⟨values, capacity⟩ := s
  cases values <;> rfl

/-- Setting a history that belongs to another slot. -/
theorem Holds.setCurrent_of_ne (hmn : Near D m n) (hr : (n.context.slots k).get? slot = some r)
    (hne : b.slot ≠ slot) (h : Holds n b v) :
    Holds { n with heap := n.heap.modifyHistory r fun s => s.setCurrent u } b v := by
  obtain ⟨q, hq, hv⟩ := h
  have hqr : r ≠ q := by
    rintro rfl
    exact hne (hmn.apart _ _ _ _ r hq hr).2
  refine ⟨q, hq, (seriesGet_of_history ?_ 0 0).trans hv⟩
  rw [Heap.history_modifyHistory, if_neg (hqr ·.1)]

theorem seriesGet_setCurrent {h : Heap} (hr : r < h.histories.size) :
    (h.modifyHistory r fun s => s.setCurrent u).seriesGet r 0 0 = u := by
  unfold Heap.seriesGet
  rw [Heap.history_modifyHistory, if_pos ⟨rfl, hr⟩, get?_setCurrent]
  rfl

theorem Holds.newHistory (hmn : Near D m n) (s : History Value) (h : Holds n b v) :
    Holds { n with heap := (n.heap.newHistory s).2 } b v := by
  obtain ⟨q, hq, hv⟩ := h
  have hlt := (hmn.slots _ q (Dict.mem_values_of_get? hq)).2
  refine ⟨q, hq, (seriesGet_of_history ?_ 0 0).trans hv⟩
  rw [Heap.history_newHistory, if_neg (Nat.ne_of_lt hlt)]

theorem Holds.setSlot_of_ne (hne : b.slot ≠ slot) (h : Holds n b v) :
    Holds { n with context := n.context.setSlot k slot r } b v := by
  obtain ⟨q, hq, hv⟩ := h
  refine ⟨q, ?_, hv⟩
  rw [slots_setSlot]
  split
  · rename_i hk
    rw [Dict.get?_insert_of_ne _ (Ne.symm hne), hk]
    exact hq
  · exact hq

theorem holds_setSlot (hv : n.heap.seriesGet r 0 0 = v) :
    Holds { n with context := n.context.setSlot b.bucket b.slot r } b v := by
  refine ⟨r, ?_, hv⟩
  rw [slots_setSlot, if_pos rfl, Dict.get?_insert_self]

/-- A slot takes the value of a series, not the series. -/
theorem initValue_na (v : Value) : initValue v .na n = .ok (n.heap.current v) n := by
  cases v with
  | series r o =>
    show EStateM.Result.ok (n.heap.seriesGet r o (n.heap.bars .na)) n = _
    rw [n.heap.bars_na]
    rfl
  | _ => rfl

/-- **Declaring a slot** gives it the value on this bar, and changes no other
slot and no frame. -/
theorem declareSlot_near (hmn : Near D m n) (b : Binding) (v : Value) :
    ∃ w n', Tame.declareSlot b.bucket b.slot (n.context.slot b.bucket b.slot) v n = .ok w n' ∧
      Near D m n' ∧ n'.heap.frames = n.heap.frames ∧ Holds n' b (n.heap.current v) ∧
      ∀ b' u, b'.slot ≠ b.slot → Holds n b' u → Holds n' b' u := by
  have hns := hmn.sound'.current v
  have hinit : ∀ view, init view v .na n = initSlot view (n.heap.current v) n := fun view => by
    rw [init_eq, Exec.bind_ok (initValue_na v)]
  unfold Tame.declareSlot slot view
  cases hslot : (n.context.slots b.bucket).get? b.slot with
  | none =>
    rw [Exec.bind_congr (hinit .na)]
    have hvalues := History.values_withCurrent (n.heap.current v) n.context.config.maxHistory
    have hnear := hmn.newHistory (s := .withCurrent (n.heap.current v) n.context.config.maxHistory)
      fun u hu => by
        rw [hvalues, List.mem_singleton] at hu
        exact hu ▸ hns
    refine ⟨_, _, rfl, hnear.setSlot b.bucket b.slot
      ⟨hmn.size, ?_⟩ fun k' x hx => ?_, rfl, holds_setSlot ?_, ?_⟩
    · exact Tame.size_lt_newHistory _ _
    · exact absurd (hmn.slots k' _ (Dict.mem_values_of_get? hx)).2 (Nat.lt_irrefl _)
    · show ((n.heap.newHistory _).2.seriesGet _ 0 0) = _
      rw [Heap.seriesGet, Heap.history_newHistory, if_pos rfl, History.get?, hvalues]
      rfl
    · exact fun b' u hne h => (h.newHistory hmn _).setSlot_of_ne hne
  | some r =>
    rw [Exec.bind_congr (hinit (.series r 0))]
    obtain ⟨hr, hlt⟩ := hmn.slots _ r (Dict.mem_values_of_get? hslot)
    have hnear := hmn.modifySlot hr (setCurrent_held hns)
    refine ⟨_, _, rfl, hnear.setSlot b.bucket b.slot ⟨hr, ?_⟩ fun k' x hx => ?_,
      rfl, holds_setSlot (seriesGet_setCurrent hlt), ?_⟩
    · show r < (n.heap.histories.modify r _).size
      rw [Array.size_modify]
      exact hlt
    · exact hmn.apart _ _ _ _ r hslot hx
    · exact fun b' u hne h => (h.setCurrent_of_ne hmn hslot hne).setSlot_of_ne hne

end Near

/-! ## Machines in step -/

/-- Machines in step at a point of a script. `ρ` are the open frames and `T` says
what they keep; `K` is the context of the slotted form. -/
structure Matched (c : Setting) (D : Array (History Value)) (K : Context) (ρ : Env) (T : Layout)
    (m n : Machine) : Prop where
  near : Near D m n
  frames : Frames D m n ρ T
  root : home? T c.root = some .context
  context : n.context = K

/-- Computations of values that keep machines in step. -/
abbrev Evaluates (c : Setting) (D : Array (History Value)) (K : Context) (ρ : Env) (T : Layout)
    (x y : Exec Value) : Prop :=
  Runs (Matched c D K ρ T) x y fun v v' m n => Shown D v v' ∧ Matched c D K ρ T m n

section Names

variable {c : Setting} {D : Array (History Value)} {K : Context} {ρ : Env} {T : Layout}
  {L : Names} {m n : Machine} {r : Ref} {x : String} {v v' : Value} {b : Binding} {host : Host}

theorem Matched.reads (hmn : Matched c D K ρ T m n) : n.heap.lookup? ρ c.root = some .context := by
  have hkept := hmn.frames.lookup c.root
  rw [hmn.root] at hkept
  exact hkept.of_context.2

theorem Matched.reads' (hmn : Matched c D K ρ T m n) : m.heap.lookup? ρ c.root = some .context := by
  have hkept := hmn.frames.lookup c.root
  rw [hmn.root] at hkept
  exact hkept.of_context.1

/-- A name that is unknown is not that of the context. -/
theorem Matched.root_declare (hmn : Matched c D K ρ (L :: T) m n) (hx : home? (L :: T) x = none)
    (h : Home) : home? (((x, h) :: L) :: T) c.root = some .context := by
  rw [home?_cons_cons, if_neg]
  · exact hmn.root
  · rintro rfl
    rw [hmn.root] at hx
    cases hx

/-- Work on the heaps that leaves histories and frames alone. -/
theorem Matched.of_heaps (hmn : Matched c D K ρ T m n)
    (hnear : Near D { m with heap := h } { n with heap := h' }) (hf : h.frames = m.heap.frames)
    (hf' : h'.frames = n.heap.frames) (hh' : h'.histories = n.heap.histories) :
    Matched c D K ρ T { m with heap := h } { n with heap := h' } := { hmn with
  near := hnear
  frames := by
    refine hmn.frames.mono (Nat.le_of_eq (congrArg Array.size hf.symm)) (fun q _ _ y => ?_)
      (fun q _ _ y => ?_) fun y _ b v _ hholds => ?_
    · show (h.frame q).get? y = _
      unfold Heap.frame
      rw [hf]
    · show (h'.frame q).get? y = _
      unfold Heap.frame
      rw [hf']
    · obtain ⟨r, hr, hv⟩ := hholds
      refine ⟨r, hr, (seriesGet_of_history ?_ 0 0).trans hv⟩
      unfold Heap.history
      rw [hh'] }

/-! ## Reading names -/

theorem readName_runs (hx : ∀ b, home? T x ≠ some (.slot b)) :
    Evaluates c D K ρ T (readName ρ x) (readName ρ x) := by
  have hlookup : ∀ m n, Matched c D K ρ T m n →
      Option.Rel (Shown D) (m.heap.lookup? ρ x) (n.heap.lookup? ρ x) := fun m n hmn => by
    have hkept := hmn.frames.lookup x
    revert hkept hx
    generalize home? T x = h
    generalize m.heap.lookup? ρ x = o
    generalize n.heap.lookup? ρ x = o'
    intro hx hkept
    cases hkept with
    | unknown => exact .none
    | context => exact .some (Visible.shown trivial)
    | frame hv => exact .some hv
    | slot hb hv h => exact absurd rfl (hx _)
  refine (runs_heap hlookup).bind fun o o' => runs_of fun ho => ?_
  cases ho with
  | some hv => exact runs_pure fun m n hmn => ⟨hv, hmn⟩
  | none =>
    cases hfree : freeName? x with
    | none => exact runs_fail _
    | some v =>
      have hv : Visible D v := by
        have hfree := freeName?_free hfree
        cases v <;> trivial
      exact runs_pure fun m n hmn => ⟨hv.shown, hmn⟩

theorem Matched.slot (hmn : Matched c D K ρ T m n) (hx : home? T x = some (.slot b)) :
    b.slot = Scopes.slotName b.scope b.serial x ∧
      ∃ r v v', (n.context.slots b.bucket).get? b.slot = some r ∧ n.heap.seriesGet r 0 0 = v' ∧
        m.heap.lookup? ρ x = some v ∧ Shown D v v' := by
  have hkept := hmn.frames.lookup x
  rw [hx] at hkept
  generalize m.heap.lookup? ρ x = o, n.heap.lookup? ρ x = o' at hkept ⊢
  cases hkept with
  | slot hb hv h =>
    obtain ⟨r, hr, hget⟩ := h
    exact ⟨hb, r, _, _, hr, hget, rfl, hv⟩

theorem readSlot_runs (hx : home? T x = some (.slot b)) :
    Evaluates c D K ρ T (readName ρ x) ((c.current b).eval host ρ) := by
  intro m n hmn
  obtain ⟨-, r, v, v', hr, hget, hlookup, hv⟩ := hmn.slot hx
  have hslot : (c.slot b).eval host ρ n = .ok (.series r 0) n := by
    refine (Tame.eval_slotOf hmn.reads host b.bucket b.slot).trans ?_
    rw [slot, view, hr]
  have hread : (c.current b).eval host ρ n = .ok v' n := by
    refine (Exec.bind_ok hslot).trans ((Exec.bind_ok rfl).trans ?_)
    rw [readElement_series n.heap.position?_zero, hget]
  rw [readName_of_lookup? hlookup, hread]
  exact .ok ⟨hv, hmn⟩

/-! ## Writing names -/

theorem assignName_of_frameOf? (h : m.heap.frameOf? ρ x = some r) :
    assignName ρ x v m = .ok () { m with heap := m.heap.define r x v } := by
  have hread : Exec.heap (fun k => k.frameOf? ρ x) m = .ok (some r) m :=
    congrArg (EStateM.Result.ok · m) h
  exact Exec.bind_ok hread

theorem get?_define_self (h : Heap) (hr : r < h.frames.size) :
    ((h.define r x v).frame r).get? x = some v := by
  rw [Heap.frame_define, if_pos ⟨rfl, hr⟩, Dict.get?_insert_self]

theorem get?_define_of_ne (h : Heap) (hne : ¬ (q = r ∧ y = x)) :
    ((h.define r x v).frame q).get? y = (h.frame q).get? y := by
  rw [Heap.frame_define]
  split
  · rename_i hq
    obtain ⟨rfl, -⟩ := hq
    rw [Dict.get?_insert_of_ne]
    rintro rfl
    exact hne ⟨rfl, rfl⟩
  · rfl

theorem size_define (h : Heap) : (h.define r x v).frames.size = h.frames.size :=
  Array.size_modify

theorem Matched.touches_define (hmn : Matched c D K ρ T m n) (r : Ref) (x : String) (v v' : Value) :
    Near D { m with heap := m.heap.define r x v } { n with heap := n.heap.define r x v' } ∧
      Touches r x m n { m with heap := m.heap.define r x v }
        { n with heap := n.heap.define r x v' } := by
  refine ⟨hmn.near.of_heaps rfl rfl hmn.near.arrays hmn.near.objects ?_
    (hmn.near.sound.define x v) (hmn.near.sound'.define x v'), ?_⟩
  · rw [size_define, size_define]
    exact hmn.near.frames
  · exact ⟨size_define _, fun q y hne => get?_define_of_ne _ hne,
      fun q y hne => get?_define_of_ne _ hne, fun y _ b u _ h => h⟩

/-- **Assigning to a name of a frame.** -/
theorem assignName_runs (hx : home? T x = some .frame) (hv : Shown D v v') :
    Runs (Matched c D K ρ T) (assignName ρ x v) (assignName ρ x v') fun _ _ =>
      Matched c D K ρ T := by
  intro m n hmn
  obtain ⟨r, -, hm, hlt, -, hn⟩ := hmn.frames.frameOf hx
  rw [assignName_of_frameOf? hm, assignName_of_frameOf? (hn rfl)]
  obtain ⟨hnear, htouch⟩ := hmn.touches_define r x v v'
  refine .ok ⟨hnear, hmn.frames.assign hx hm htouch ?_, hmn.root, hmn.context⟩
  rw [get?_define_self _ hlt, get?_define_self _ (hmn.near.frames ▸ hlt)]
  exact .frame hv

/-- A name that a frame of the script has, and a slot of its own. -/
theorem touches_slot (hn : n' = { heap := h, context := K' }) (hframes : h.frames = n.heap.frames)
    (hb : b.slot = Scopes.slotName b.scope b.serial x)
    (hothers : ∀ b' u, b'.slot ≠ b.slot → Holds n b' u → Holds n' b' u) :
    Touches r x m n { m with heap := m.heap.define r x v } n' := by
  subst hn
  refine ⟨size_define _, fun q y hne => get?_define_of_ne _ hne, fun q y _ => ?_,
    fun y hy b' u hb' hold => hothers b' u (fun heq => hy ?_) hold⟩
  · unfold Heap.frame
    rw [hframes]
  · exact Scopes.slotName_injective (hb'.symm.trans (heq.trans hb))

/-- **Assigning to a name of a slot** sets the current bar of the slot. -/
theorem writeSlot_runs (hx : home? T x = some (.slot b)) (hv : Shown D v v') :
    Runs (Matched c D K ρ T) (assignName ρ x v) ((c.current b).write host ρ v') fun _ _ =>
      Matched c D K ρ T := by
  intro m n hmn
  obtain ⟨hb, q, -, -, hq, -, -, -⟩ := hmn.slot hx
  obtain ⟨r, -, hm, hlt, hkept, -⟩ := hmn.frames.frameOf hx
  obtain ⟨hle, hltq⟩ := hmn.near.slots _ q (Dict.mem_values_of_get? hq)
  have hslot : (c.slot b).eval host ρ n = .ok (.series q 0) n := by
    refine (Tame.eval_slotOf hmn.reads host b.bucket b.slot).trans ?_
    rw [slot, view, hq]
  have hshows : showsHistory q v' = false := by
    have hvis := hv.visible hmn.near
    cases v' with
    | series p o => exact beq_false_of_ne (Nat.lt_of_lt_of_le hvis hle).ne
    | _ => rfl
  have hbar : (fun s => setBar s (0 + 0) (n.heap.current v')) =
      fun s => s.setCurrent (n.heap.current v') := funext fun s => History.setBar_zero s _
  have hwrite : (c.current b).write host ρ v' n =
      .ok () { n with
        heap := n.heap.modifyHistory q fun s => s.setCurrent (n.heap.current v') } := by
    refine (Exec.bind_ok hslot).trans ((Exec.bind_ok rfl).trans ?_)
    rw [writeElement_series n.heap.position?_zero, hshows, hbar]
    rfl
  rw [assignName_of_frameOf? hm, hwrite]
  have hnear := hmn.near.modifySlot hle (setCurrent_held (hmn.near.sound'.current v'))
  have hdefined : Near D { m with heap := m.heap.define r x v } _ :=
    hnear.of_heaps rfl rfl hnear.arrays hnear.objects
      ((hnear.frames).trans (size_define _).symm) (hmn.near.sound.define x v) hnear.sound'
  refine .ok ⟨hdefined, hmn.frames.assign hx hm (touches_slot rfl rfl hb
    fun b' u hne h => h.setCurrent_of_ne hmn.near hq hne) ?_, hmn.root, hmn.context⟩
  have hframe :
      ((n.heap.modifyHistory q fun s => s.setCurrent (n.heap.current v')).frame r).get? x =
      none := hkept.of_slot
  rw [get?_define_self _ hlt, hframe]
  exact .slot hb (hv.settled hmn.near) ⟨q, hq, seriesGet_setCurrent hltq⟩

/-- **Declaring a name in a frame.** -/
theorem defineName_runs (hx : home? (L :: T) x = none) (hv : Shown D v v') :
    Runs (Matched c D K (r :: ρ) (L :: T)) (defineName (r :: ρ) x v) (defineName (r :: ρ) x v')
      fun _ _ => Matched c D K (r :: ρ) (((x, .frame) :: L) :: T) := by
  intro m n hmn
  obtain ⟨hnear, htouch⟩ := hmn.touches_define r x v v'
  refine .ok ⟨hnear, hmn.frames.declare hx htouch ?_, ?_, hmn.context⟩
  · have hlt := hmn.frames.head_lt
    rw [get?_define_self _ hlt, get?_define_self _ (hmn.near.frames ▸ hlt)]
    exact .frame hv
  · exact hmn.root_declare hx _

/-- **Declaring a name in a slot.** -/
theorem declareSlot_runs (hx : home? (L :: T) x = none)
    (hb : b.slot = Scopes.slotName b.scope b.serial x) (hv : Shown D v v') :
    Runs (Matched c D K (r :: ρ) (L :: T)) (defineName (r :: ρ) x v)
      (Tame.declareSlot b.bucket b.slot (K.slot b.bucket b.slot) v')
      fun _ _ m n => ∃ K', Matched c D K' (r :: ρ) (((x, .slot b) :: L) :: T) m n := by
  intro m n hmn
  have hnone : (n.heap.frame r).get? x = none := hmn.frames.head_unknown hx
  have hlt := hmn.frames.head_lt
  rw [← hmn.context]
  obtain ⟨w, n', hrun, hnear, hframes, hholds, hothers⟩ := declareSlot_near hmn.near b v'
  rw [hrun]
  have hdefined : Near D { m with heap := m.heap.define r x v } n' :=
    hnear.of_heaps rfl rfl hnear.arrays hnear.objects
      ((hnear.frames).trans (size_define _).symm) (hmn.near.sound.define x v) hnear.sound'
  refine .ok ⟨n'.context, hdefined, hmn.frames.declare hx
    (touches_slot rfl hframes hb hothers) ?_, hmn.root_declare hx _, rfl⟩
  have hframe : (n'.heap.frame r).get? x = none := by
    unfold Heap.frame
    rw [hframes]
    exact hnone
  rw [get?_define_self _ hlt, hframe]
  exact .slot hb (hv.settled hmn.near) hholds

/-! ## Frames, arrays and objects -/

theorem Near.newFrame (hmn : Near D m n) (d : Dict Value) :
    Near D { m with heap := (m.heap.newFrame d).2 } { n with heap := (n.heap.newFrame d).2 } := by
  refine hmn.of_heaps rfl rfl hmn.arrays hmn.objects ?_ (hmn.sound.newFrame _)
    (hmn.sound'.newFrame _)
  show (n.heap.frames.push _).size = (m.heap.frames.push _).size
  rw [Array.size_push, Array.size_push, hmn.frames]

theorem Frames.newFrame (hmn : Near D m n) (hs : Frames D m n ρ T) {d : Dict Value}
    (hd : ∀ x, Kept D n x (L.lookup x) (d.get? x) (d.get? x))
    (hL : ∀ x, L.lookup x ≠ none → home? T x = none) :
    Frames D { m with heap := (m.heap.newFrame d).2 } { n with heap := (n.heap.newFrame d).2 }
      (m.heap.frames.size :: ρ) (L :: T) := by
  have hsize : (m.heap.frames.push d).size = m.heap.frames.size + 1 := Array.size_push _
  refine .cons ⟨?_, fun x => ?_⟩ (fun hr => Nat.lt_irrefl _ (hs.lt _ hr)) hL
    (hs.mono ?_ (fun q _ hq y => ?_) (fun q _ hq y => ?_) fun _ _ _ _ _ h => h)
  · exact Nat.lt_of_lt_of_eq (Nat.lt_succ_self _) hsize.symm
  · rw [Heap.frame_newFrame, Heap.frame_newFrame, if_pos rfl, if_pos hmn.frames.symm]
    exact (hd x).mono fun _ _ _ _ h => h
  · exact Nat.le_of_lt (Nat.lt_of_lt_of_eq (Nat.lt_succ_self _) hsize.symm)
  · rw [Heap.frame_newFrame, if_neg hq.ne]
  · rw [Heap.frame_newFrame, if_neg (hmn.frames ▸ hq).ne]

theorem openFrame_runs : Runs (Matched c D K ρ T) (openFrame ρ) (openFrame ρ) fun ρ' ρ'' m n =>
    ∃ r, ρ' = r :: ρ ∧ ρ'' = r :: ρ ∧ Matched c D K (r :: ρ) ([] :: T) m n := by
  intro m n hmn
  refine .ok ⟨m.heap.frames.size, rfl, congrArg (· :: ρ) hmn.near.frames,
    hmn.near.newFrame .empty, hmn.frames.newFrame hmn.near (fun _ => .unknown) ?_, hmn.root,
    hmn.context⟩
  exact fun x hx => absurd rfl hx

theorem Matched.close (hmn : Matched c D K (r :: ρ) (L :: T) m n)
    (hroot : home? T c.root = some .context) : Matched c D K ρ T m n := by
  obtain ⟨hnear, hs, -, hcontext⟩ := hmn
  cases hs with
  | cons _ _ _ hs => exact ⟨hnear, hs, hroot, hcontext⟩

theorem newArray_runs {l : List Value} (hl : ∀ v ∈ l, ¬ v.IsSeries) :
    Evaluates c D K ρ T (Exec.alloc fun h => h.newArray l.toArray)
      (Exec.alloc fun h => h.newArray l.toArray) := by
  intro m n hmn
  have hl : ∀ v ∈ l.toArray.toList, ¬ v.IsSeries := by
    rw [List.toList_toArray]
    exact hl
  refine .ok ⟨⟨trivial, .inl (congrArg (Value.array ·.size) hmn.near.arrays)⟩,
    hmn.of_heaps ?_ rfl rfl rfl⟩
  exact hmn.near.of_heaps rfl rfl (congrArg (Array.push · l.toArray) hmn.near.arrays)
    hmn.near.objects hmn.near.frames (hmn.near.sound.newArray hl) (hmn.near.sound'.newArray hl)

theorem newObject_runs (hl : ∀ p ∈ l, ¬ p.2.IsSeries) :
    Evaluates c D K ρ T (Exec.alloc fun h => h.newObject (.ofList l))
      (Exec.alloc fun h => h.newObject (.ofList l)) := by
  intro m n hmn
  have hvalues : ∀ v ∈ (Dict.ofList l).values, ¬ v.IsSeries := fun v hv => by
    obtain ⟨p, hp, rfl⟩ := List.mem_map.1 (Dict.mem_values_ofList hv)
    exact hl p hp
  have hordered := Dict.ordered_ofList l
  refine .ok ⟨⟨trivial, .inl (congrArg (Value.object ·.size) hmn.near.objects)⟩,
    hmn.of_heaps ?_ rfl rfl rfl⟩
  exact hmn.near.of_heaps rfl rfl hmn.near.arrays
    (congrArg (Array.push · (Dict.ofList l)) hmn.near.objects) hmn.near.frames
    (hmn.near.sound.newObject hordered hvalues) (hmn.near.sound'.newObject hordered hvalues)

end Names

end Slotting

end BarScript

import BarScript.Proofs.Stability.Heap

/-!
# Tame scripts keep slots

Running a tame script keeps the machine orderly, and all it does to the slots is
to write their current bars and to add new ones. Both are one statement about
the evaluator, an instance of `Simulation` in which the two machines are the
same one and the worlds are the machines themselves.

The one step that is not made of smaller ones is the declaration of a slot,
`root.let.s = root.init(root.let.s, e)`. While `e` is evaluated the slot may come
into being, if `e` calls a function that declares it too; the history made there
is then given up for a new one. So between the two there is no growth, but from
the beginning of the declaration to its end there is: at the beginning the slot
was not there.
-/

namespace BarScript

open Machine Correspondence List Exec

/-- How many bars a history keeps by the settings. -/
def Config.capacity (c : Config) : Option Nat :=
  c.maxHistory.map (Nat.max 1)

/-! ## Histories -/

namespace History

variable {α : Type} (s : History α) (v : α)

theorem values_withCurrent (capacity : Option Nat) : (withCurrent v capacity).values = [v] := by
  cases capacity with
  | none => rfl
  | some c =>
    exact take_of_length_le (Nat.le_max_left 1 c)

theorem tail_setCurrent : (s.setCurrent v).values.tail = s.values.tail := by
  obtain ⟨values, capacity⟩ := s
  cases values <;> rfl

theorem setCurrent_ne_nil : (s.setCurrent v).values ≠ [] := by
  obtain ⟨values, capacity⟩ := s
  cases values <;> exact cons_ne_nil _ _

theorem capacity_setCurrent : (s.setCurrent v).capacity = s.capacity := by
  obtain ⟨values, capacity⟩ := s
  cases values <;> rfl

/-- Setting the current bar of a history is one thing, whether or not there is
one. -/
theorem setBar_zero (s : History Value) (v : Value) : setBar s 0 v = s.setCurrent v := by
  obtain ⟨values, capacity⟩ := s
  cases values <;> rfl

end History

namespace Context

variable (c : Context) (b k : Bucket) (slot : String) (r : Ref)

variable {front back : List Ref} {d : Dict Ref} {key : String}

theorem slots_setSlot :
    (c.setSlot b slot r).slots k = if b = k then (c.slots b).insert slot r else c.slots k := by
  cases b <;> cases k <;> rfl

/-- A context with one more name, for a history. -/
structure Names (c c' : Context) (r : Ref) : Prop where
  nodup : c.named.Nodup → r ∉ c.named → c'.named.Nodup
  mem : ∀ q ∈ c'.named, q = r ∨ q ∈ c.named

/-- Setting a key of one dictionary among other names. -/
theorem nodup_insert {r : Ref} (h : (front ++ (d.values ++ back)).Nodup)
    (hr : r ∉ front ++ (d.values ++ back)) :
    (front ++ ((d.insert key r).values ++ back)).Nodup := by
  simp only [mem_append, not_or] at hr
  obtain ⟨hfront, hrest, hdisj⟩ := nodup_append.1 h
  obtain ⟨hd, hback, hdisj'⟩ := nodup_append.1 hrest
  refine nodup_append.2 ⟨hfront, nodup_append.2
    ⟨Dict.nodup_values_insert hd hr.2.1, hback, fun q hq p hp => ?_⟩, fun q hq p hp => ?_⟩
  · rcases Dict.mem_values_insert hq with rfl | hq
    · rintro rfl
      exact hr.2.2 hp
    · exact hdisj' q hq p hp
  · rcases mem_append.1 hp with hp | hp
    · rcases Dict.mem_values_insert hp with rfl | hp
      · rintro rfl
        exact hr.1 hq
      · exact hdisj q hq p (mem_append_left _ hp)
    · exact hdisj q hq p (mem_append_right _ hp)

theorem mem_insert {r : Ref} (h : q ∈ front ++ ((d.insert key r).values ++ back)) :
    q = r ∨ q ∈ front ++ (d.values ++ back) := by
  simp only [mem_append] at h ⊢
  rcases h with h | h | h
  · exact .inr (.inl h)
  · exact (Dict.mem_values_insert h).imp_right fun h => .inr (.inl h)
  · exact .inr (.inr (.inr h))

theorem names_of_eq {c c' : Context} {r : Ref} (h : c.named = front ++ (d.values ++ back))
    (h' : c'.named = front ++ ((d.insert key r).values ++ back)) : Names c c' r := by
  constructor
  · rw [h, h']
    exact nodup_insert
  · rw [h, h']
    exact fun q => mem_insert

theorem names_setSlot : Names c (c.setSlot b slot r) r := by
  cases b with
  | «let» =>
    have h : ∀ d : Dict Ref, { c with lets := d }.named =
        c.data.values ++ (d.values ++ (c.consts.values ++ c.params.values)) := fun d => by
      simp only [named, append_assoc]
    exact names_of_eq (h c.lets) (h (c.lets.insert slot r))
  | const =>
    have h : ∀ d : Dict Ref, { c with consts := d }.named =
        c.data.values ++ c.lets.values ++ (d.values ++ c.params.values) := fun d => by
      simp only [named, append_assoc]
    exact names_of_eq (h c.consts) (h (c.consts.insert slot r))

theorem names_param (key : String) : Names c { c with params := c.params.insert key r } r := by
  have h : ∀ d : Dict Ref, { c with params := d }.named =
      c.data.values ++ c.lets.values ++ c.consts.values ++ (d.values ++ []) := fun d => by
    simp only [named, List.append_nil]
  exact names_of_eq (h c.params) (h (c.params.insert key r))

theorem names_data (key : String) : Names c { c with data := c.data.insert key r } r := by
  have h : ∀ d : Dict Ref, { c with data := d }.named =
      [] ++ (d.values ++ (c.lets.values ++ c.consts.values ++ c.params.values)) := fun d => by
    simp only [named, append_assoc, List.nil_append]
  exact names_of_eq (h c.data) (h (c.data.insert key r))

theorem mem_named_of_data {c : Context} {r : Ref} (h : c.data.get? name = some r) :
    r ∈ c.named := by
  have hr : r ∈ c.data.values := Dict.mem_values_of_get? h
  simp [named, hr]

theorem mem_named_of_slot {c : Context} {b : Bucket} {slot : String} {r : Ref}
    (h : (c.slots b).get? slot = some r) : r ∈ c.named := by
  have hr : r ∈ (c.slots b).values := Dict.mem_values_of_get? h
  cases b with
  | «let» => simp [named, show r ∈ c.lets.values from hr]
  | const => simp [named, show r ∈ c.consts.values from hr]

end Context

namespace Tame

variable (root : String)

/-! ## Orderly machines -/

/-- Histories are as long as the settings say, none has two names, and a slot has
a value. -/
structure Unshared (m : Machine) : Prop where
  capacity : ∀ r < m.heap.histories.size, (m.heap.history r).capacity = m.context.config.capacity
  ordered : ∀ b, (m.context.slots b).Ordered
  nodup : m.context.named.Nodup
  inRange : ∀ r ∈ m.context.named, r < m.heap.histories.size
  filled : ∀ b slot r, (m.context.slots b).get? slot = some r → (m.heap.history r).values ≠ []

/-- The invariant of a run. -/
structure Orderly (m : Machine) : Prop where
  tamed : Tamed root (shape root) m.heap
  apart : Unshared m

/-- What a run may do: the heap grows, slots keep their histories, and a slot that
is new has a history that is. -/
structure Grown (a b : Machine) : Prop where
  heap : Extends root a.heap b.heap
  config : b.context.config = a.context.config
  steps : b.context.steps = a.context.steps
  slots : ∀ k slot r, (a.context.slots k).get? slot = some r →
    (b.context.slots k).get? slot = some r
  created : ∀ k slot r, (a.context.slots k).get? slot = none →
    (b.context.slots k).get? slot = some r → a.heap.histories.size ≤ r

variable {root} {a b c m : Machine} {v : Value} {h : Heap}

namespace Grown

theorem refl (m : Machine) : Grown root m m where
  heap := .refl m.heap
  config := rfl
  steps := rfl
  slots _ _ _ hr := hr
  created _ _ _ hnone hsome := by
    rw [hnone] at hsome
    cases hsome

theorem trans (hab : Grown root a b) (hbc : Grown root b c) : Grown root a c where
  heap := hab.heap.trans hbc.heap
  config := hbc.config.trans hab.config
  steps := hbc.steps.trans hab.steps
  slots k slot r hr := hbc.slots k slot r (hab.slots k slot r hr)
  created k slot r hnone hsome := by
    cases hb : (b.context.slots k).get? slot with
    | none => exact Nat.le_trans hab.heap.size (hbc.created k slot r hb hsome)
    | some q =>
      have hq := hbc.slots k slot q hb
      rw [hsome] at hq
      cases hq
      exact hab.created k slot r hnone hb

theorem of_heap (hh : Extends root m.heap h) : Grown root m { m with heap := h } where
  heap := hh
  config := rfl
  steps := rfl
  slots _ _ _ hr := hr
  created _ _ _ hnone hsome := by
    rw [show (m.context.slots _).get? _ = _ from hsome] at hnone
    cases hnone

theorem of_context {c : Context} (hconfig : c.config = m.context.config)
    (hsteps : c.steps = m.context.steps) (hslots : ∀ k, c.slots k = m.context.slots k) :
    Grown root m { m with context := c } where
  heap := .refl m.heap
  config := hconfig
  steps := hsteps
  slots k slot r hr := by
    rw [hslots]
    exact hr
  created k slot r hnone hsome := by
    rw [hslots, hnone] at hsome
    cases hsome

end Grown

namespace Unshared

variable (ha : Unshared m)

include ha

theorem fresh : m.heap.histories.size ∉ m.context.named :=
  fun hmem => Nat.lt_irrefl _ (ha.inRange _ hmem)

theorem of_histories (hh : h.histories = m.heap.histories) : Unshared { m with heap := h } := by
  have hhist : ∀ r, h.history r = m.heap.history r := fun r => by
    unfold Heap.history
    rw [hh]
  refine ⟨fun r hr => ?_, ha.ordered, ha.nodup, fun r hr => ?_, fun b slot r hr => ?_⟩
  · rw [show h.history r = _ from hhist r]
    exact ha.capacity r (hh ▸ hr)
  · rw [hh]
    exact ha.inRange r hr
  · rw [show h.history r = _ from hhist r]
    exact ha.filled b slot r hr

theorem newHistory {s : History Value} (hs : s.capacity = m.context.config.capacity) :
    Unshared { m with heap := (m.heap.newHistory s).2 } := { ha with
  capacity r hr := by
    show ((m.heap.newHistory s).2.history r).capacity = _
    rw [Heap.history_newHistory]
    split
    · exact hs
    · rename_i hne
      refine ha.capacity r ?_
      have hr : r < (m.heap.histories.push s).size := hr
      rw [Array.size_push] at hr
      exact Nat.lt_of_le_of_ne (Nat.le_of_lt_succ hr) hne
  inRange r hr := by
    show r < (m.heap.histories.push s).size
    rw [Array.size_push]
    exact Nat.lt_succ_of_lt (ha.inRange r hr)
  filled b slot r hr := by
    show ((m.heap.newHistory s).2.history r).values ≠ []
    have hlt := ha.inRange r (Context.mem_named_of_slot hr)
    rw [Heap.history_newHistory, if_neg (Nat.ne_of_lt hlt)]
    exact ha.filled b slot r hr }

theorem modifyHistory {f : History Value → History Value} (hcap : ∀ s, (f s).capacity = s.capacity)
    (hne : ∀ s, s.values ≠ [] → (f s).values ≠ []) :
    Unshared { m with heap := m.heap.modifyHistory q f } := { ha with
  capacity r hr := by
    show ((m.heap.modifyHistory q f).history r).capacity = _
    have hr : r < (m.heap.histories.modify q f).size := hr
    rw [Array.size_modify] at hr
    rw [Heap.history_modifyHistory]
    split
    · rename_i hq
      rw [hcap, hq.1]
      exact ha.capacity r hr
    · exact ha.capacity r hr
  inRange r hr := by
    show r < (m.heap.histories.modify q f).size
    rw [Array.size_modify]
    exact ha.inRange r hr
  filled b slot r hr := by
    show ((m.heap.modifyHistory q f).history r).values ≠ []
    rw [Heap.history_modifyHistory]
    split
    · rename_i hq
      exact hne _ (hq.1 ▸ ha.filled b slot r hr)
    · exact ha.filled b slot r hr }

/-- Work on the context that leaves its names alone. -/
theorem of_context {c : Context} (hconfig : c.config = m.context.config)
    (hslots : ∀ b, c.slots b = m.context.slots b) (hnamed : c.named = m.context.named) :
    Unshared { m with context := c } where
  capacity r hr := by
    rw [show ({ m with context := c } : Machine).context.config = _ from hconfig]
    exact ha.capacity r hr
  ordered b := by
    rw [show ({ m with context := c } : Machine).context.slots b = _ from hslots b]
    exact ha.ordered b
  nodup := hnamed ▸ ha.nodup
  inRange r hr := ha.inRange r (hnamed ▸ hr)
  filled b slot r hr := by
    rw [show ({ m with context := c } : Machine).context.slots b = _ from hslots b] at hr
    exact ha.filled b slot r hr

theorem name {c : Context} {r : Ref} (hc : Context.Names m.context c r)
    (hconfig : c.config = m.context.config) (hordered : ∀ b, (c.slots b).Ordered)
    (hr : r ∉ m.context.named) (hlt : r < m.heap.histories.size)
    (hfilled : ∀ b slot q, (c.slots b).get? slot = some q → (m.heap.history q).values ≠ []) :
    Unshared { m with context := c } where
  capacity q hq := by
    rw [show ({ m with context := c } : Machine).context.config = _ from hconfig]
    exact ha.capacity q hq
  ordered := hordered
  nodup := hc.nodup ha.nodup hr
  inRange q hq := by
    rcases hc.mem q hq with rfl | hq
    · exact hlt
    · exact ha.inRange q hq
  filled := hfilled

theorem nameOther {c : Context} {r : Ref} (hc : Context.Names m.context c r)
    (hconfig : c.config = m.context.config) (hslots : ∀ b, c.slots b = m.context.slots b)
    (hr : r ∉ m.context.named) (hlt : r < m.heap.histories.size) :
    Unshared { m with context := c } := by
  refine ha.name hc hconfig (fun b => ?_) hr hlt fun b slot q hq => ?_
  · rw [hslots]
    exact ha.ordered b
  · rw [hslots] at hq
    exact ha.filled b slot q hq

theorem setSlot (k : Bucket) (slot : String) {r : Ref} (hr : r ∉ m.context.named)
    (hlt : r < m.heap.histories.size) (hne : (m.heap.history r).values ≠ []) :
    Unshared { m with context := m.context.setSlot k slot r } := by
  refine ha.name (Context.names_setSlot _ k slot r) ?_ (fun q => ?_) hr hlt fun q t p hp => ?_
  · cases k <;> rfl
  · rw [Context.slots_setSlot]
    split
    · exact (ha.ordered k).insert slot r
    · exact ha.ordered q
  · rw [Context.slots_setSlot] at hp
    split at hp
    · rcases (Dict.get?_insert_eq_some_iff _ _ _ _ _).1 hp with ⟨-, rfl⟩ | ⟨-, hp⟩
      · exact hne
      · exact ha.filled k t p hp
    · exact ha.filled q t p hp

end Unshared

theorem size_lt_newHistory (h : Heap) (s : History Value) :
    h.histories.size < (h.newHistory s).2.histories.size := by
  show _ < (h.histories.push s).size
  rw [Array.size_push]
  exact Nat.lt_succ_self _

/-! ## Readings -/

variable (root) in
/-- One machine, looked at twice: what holds of it is what is kept. -/
def base : Correspondence Machine where
  shape := shape root
  le := Grown root
  refl := .refl
  trans := .trans
  rel w m n := m = w ∧ n = w ∧ Orderly root w
  val w v v' := v' = v ∧ Fits root (shape root) w.heap v
  env w ρ ρ' := ρ' = ρ ∧ Sees root w.heap ρ
  val_mono hw hv := ⟨hv.1, hv.2.mono hw.heap.frame⟩
  env_mono hw hρ := ⟨hρ.1, hρ.2.mono hw.heap.frame⟩

variable (root) in
theorem mirror : Mirror (base root) fun w => Sees root w.heap where
  val := Iff.rfl
  env := Iff.rfl
  rel := by
    rintro w m n ⟨rfl, rfl, hm⟩
    exact ⟨rfl, hm.tamed.toPopulated⟩

variable (root) in
/-- Every reading of an orderly machine fits. -/
def resemblance : Resemblance Machine :=
  (mirror root).resemblance

/-! ## Work on the heap -/

theorem Orderly.of_heap (ho : Orderly root m) (ht : Tamed root (shape root) h)
    (hh : h.histories = m.heap.histories) : Orderly root { m with heap := h } :=
  ⟨ht, ho.apart.of_histories hh⟩

theorem alloc_agree {α : Type} {Q : Machine → α → α → Prop} {f : Heap → α × Heap}
    (ht : Tamed root (shape root) m.heap → Tamed root (shape root) (f m.heap).2)
    (hframe : ∀ r, (m.heap.frame r).get? root = some .context →
      ((f m.heap).2.frame r).get? root = some .context)
    (hh : (f m.heap).2.histories = m.heap.histories)
    (hQ : Q { m with heap := (f m.heap).2 } (f m.heap).1 (f m.heap).1) :
    (base root).Steady m Q (alloc f) := by
  rintro _ _ ⟨rfl, rfl, hm⟩
  refine .ok (Grown.of_heap (.of_histories hh hframe)) ⟨rfl, rfl, ?_⟩ hQ
  exact hm.of_heap (ht hm.tamed) hh

theorem newArray_agree (hl : (base root).Items m l l') :
    (base root).Agree m (base root).Held (alloc fun h => h.newArray l.toArray)
      (alloc fun h => h.newArray l'.toArray) := by
  obtain ⟨rfl, hl⟩ := (mirror root).items_iff.1 hl
  exact alloc_agree (fun ht => ht.newArray hl) (fun _ hr => hr) rfl ⟨⟨rfl, trivial⟩, id⟩

theorem newObject_agree (hl : (base root).Fields m l l') :
    (base root).Agree m (base root).val (alloc fun h => h.newObject (.ofList l))
      (alloc fun h => h.newObject (.ofList l')) := by
  obtain ⟨rfl, hl⟩ := entries_eq (fun _ _ hv => hv.1.1) hl
  refine alloc_agree (fun ht => ht.newObject fun p hp => ?_) (fun _ hr => hr) rfl ⟨rfl, trivial⟩
  exact ⟨(hl p hp).2, (hl p hp).1.2⟩

theorem newFrame_agree (hρ : (base root).env m ρ ρ')
    (hl : (base root).Entries m l l') (hnames : ∀ p ∈ l, p.1 ≠ root) :
    (base root).Agree m (fun w r r' => (base root).env w (r :: ρ) (r' :: ρ'))
      (alloc fun h => h.newFrame (.ofList l)) (alloc fun h => h.newFrame (.ofList l')) := by
  obtain ⟨rfl, hρ⟩ := hρ
  obtain ⟨rfl, hl⟩ := entries_eq (fun _ _ hv => hv.1) hl
  have hnone : (Dict.ofList l').get? root = none :=
    Dict.ofList_induction (P := fun d => d.get? root = none) rfl fun d hd p hp => by
      rw [Dict.get?_insert_of_ne _ (hnames p hp)]
      exact hd
  refine alloc_agree (fun ht => ht.newFrame (fun v hv => ?_) fun v hv => ?_) (frame_newFrame _) rfl
    ⟨rfl, ?_⟩
  · obtain ⟨p, hp, rfl⟩ := mem_map.1 (Dict.mem_values_ofList hv)
    exact (hl p hp).2
  · rw [hnone] at hv
    cases hv
  · obtain ⟨r, hr, hroot⟩ := hρ
    exact ⟨r, mem_cons_of_mem _ hr, frame_newFrame _ r hroot⟩

theorem newHistory_agree {s : History Value} (hs : s.values.tail = [])
    (hvals : ∀ v ∈ s.values, ¬ v.IsSeries ∧ Fits root (shape root) m.heap v)
    (hcap : s.capacity = m.context.config.capacity) :
    (base root).Steady m (fun w r r' => r' = r ∧ r = m.heap.histories.size ∧ w.context = m.context ∧
        w.heap.history r = s ∧ r < w.heap.histories.size)
      (alloc fun h => h.newHistory s) := by
  rintro _ _ ⟨rfl, rfl, hm⟩
  refine .ok (Grown.of_heap (.newHistory hs)) ⟨rfl, rfl, ?_⟩ ⟨rfl, rfl, rfl, ?_, ?_⟩
  · exact ⟨hm.tamed.newHistory hvals, hm.apart.newHistory hcap⟩
  · rw [Heap.history_newHistory, if_pos rfl]
  · exact size_lt_newHistory _ s

theorem newSeries_agree {v : Value} (hv : (base root).Held m v v') :
    (base root).Agree m (fun w r r' => r' = r ∧ r = m.heap.histories.size ∧
        w.context = m.context ∧ (w.heap.history r).values = [v] ∧ r < w.heap.histories.size)
      (newSeries v) (newSeries v') := by
  obtain ⟨⟨rfl, hfit⟩, hns⟩ := hv
  rintro _ n ⟨rfl, rfl, hm⟩
  have hvalues := History.values_withCurrent v' n.context.config.maxHistory
  refine (newHistory_agree ?_ (fun u hu => ?_) ?_
    n n ⟨rfl, rfl, hm⟩).weaken (.refl n) fun w _ r r' hr =>
      ⟨hr.1, hr.2.1, hr.2.2.1, ?_, hr.2.2.2.2⟩
  · rw [hvalues]
    rfl
  · rw [hvalues, mem_singleton] at hu
    exact hu ▸ ⟨hns, hfit⟩
  · rfl
  · rw [hr.2.2.2.1, hvalues]

theorem setCurrent_agree {r : Ref} {v : Value}
    (hr : (base root).val m (.series r o) (.series r' o)) (hv : (base root).Held m v v') :
    (base root).Agree m same (modifyHeap fun h => h.modifyHistory r fun s => s.setCurrent v)
      (modifyHeap fun h => h.modifyHistory r' fun s => s.setCurrent v') := by
  cases hr.1
  obtain ⟨⟨rfl, hfit⟩, hns⟩ := hv
  rintro _ _ ⟨rfl, rfl, hm⟩
  refine .ok (Grown.of_heap (.modifyHistory (fun s => s.tail_setCurrent v') fun s _ =>
    s.setCurrent_ne_nil v')) ⟨rfl, rfl, hm.tamed.setCurrent hns hfit, ?_⟩ rfl
  exact hm.apart.modifyHistory (fun s => s.capacity_setCurrent v') fun s _ => s.setCurrent_ne_nil v'

theorem modifyArray_agree {r r' : Ref} {f f' : Array Value → Array Value}
    (hr : (base root).val m (.array r) (.array r'))
    (hf : ∀ w, (base root).le m w → ∀ a a' : Array Value, (base root).Items w a.toList a'.toList →
      (base root).Items w (f a).toList (f' a').toList) :
    (base root).Agree m same (modifyHeap fun h => h.modifyArray r f)
      (modifyHeap fun h => h.modifyArray r' f') := by
  cases hr.1
  rintro _ n ⟨rfl, rfl, hm⟩
  obtain ⟨heq, hkeeps⟩ := (mirror root).modifyArray_eq ⟨rfl, rfl, hm⟩ r (hf n (.refl n))
  show Endings _ n _ (.ok () { n with heap := n.heap.modifyArray r f })
    (.ok () { n with heap := n.heap.modifyArray r f' })
  rw [heq]
  have hgrown : Grown root n { n with heap := n.heap.modifyArray r f } :=
    .of_heap (.of_histories rfl fun _ h => h)
  exact .ok hgrown ⟨rfl, rfl, hm.of_heap (hm.tamed.modifyArray hkeeps) rfl⟩ rfl

theorem define_agree {r : Ref} (hname : name ≠ root) (hv : Fits root (shape root) m.heap v) :
    (base root).Steady m same (modifyHeap fun h => h.define r name v) := by
  rintro _ n ⟨rfl, rfl, hm⟩
  have hgrown : Grown root n { n with heap := n.heap.define r name v } :=
    .of_heap (.of_histories rfl (frame_define hname))
  exact .ok hgrown ⟨rfl, rfl, hm.of_heap (hm.tamed.define hname hv) rfl⟩ rfl

/-! ## Work on the context -/

theorem modifyContext_agree {f : Context → Context}
    (hgrown : Grown root m { m with context := f m.context })
    (hapart : Unshared m → Unshared { m with context := f m.context }) :
    (base root).Steady m same (modifyContext f) := by
  rintro _ n ⟨rfl, rfl, hm⟩
  exact .ok hgrown ⟨rfl, rfl, hm.tamed, hapart hm.apart⟩ rfl

/-- A history without a name may become that of an argument. -/
theorem addParam_agree {id : String} {r : Ref} (hr : r ∉ m.context.named)
    (hlt : r < m.heap.histories.size) :
    (base root).Steady m same (modifyContext fun c =>
      { c with params := c.params.insert id r }) := by
  have hslots : ∀ k, { m.context with params := m.context.params.insert id r }.slots k =
      m.context.slots k := fun k => by cases k <;> rfl
  exact modifyContext_agree (.of_context rfl rfl hslots) fun ha =>
    ha.nameOther (Context.names_param _ r id) rfl hslots hr hlt

theorem paramHistory_agree (id : String) :
    (base root).Steady m (fun w r r' => (base root).val w (.series r 0) (.series r' 0))
      (paramHistory id) := by
  refine (agree_context_eq fun m n hmn => by rw [hmn.1, hmn.2.1]).bind_same fun w hw r? => ?_
  cases r? with
  | some r => exact agree_pure ⟨rfl, trivial⟩
  | none =>
    refine agree_of_rel fun _ n hn => ?_
    obtain ⟨rfl, rfl, hn⟩ := hn
    refine (agree_context (Q := fun w c c' => c' = c ∧ w = n ∧ c = n.context.config.maxHistory)
      fun m n' hmn => ⟨by rw [hmn.1, hmn.2.1], rfl, by rw [hmn.1]⟩).bind fun w _ c _ hc => ?_
    obtain ⟨rfl, rfl, rfl⟩ := hc
    refine (newHistory_agree (s := .new w.context.config.maxHistory) rfl (fun _ hv => nomatch hv)
      rfl).bind fun w₁ _ r r' hr => ?_
    obtain ⟨rfl, rfl, hcontext, -, hlt⟩ := hr
    refine (addParam_agree ?_ hlt).bind fun w₂ _ _ _ _ => agree_pure ⟨rfl, trivial⟩
    rw [hcontext]
    exact hn.apart.fresh

/-! ## Slots -/

theorem Orderly.reads {id : Ident} (hm : Orderly root m) (hρ : Sees root m.heap ρ)
    (hid : id.name = root) : m.heap.lookup? ρ id.name = some .context :=
  hid ▸ hm.tamed.lookup? hρ

section Slots

variable {ρ : Env} {id : Ident} (hroot : m.heap.lookup? ρ id.name = some .context) (host : Host)
  (k : Bucket) (slot : String)

include hroot

theorem eval_contextMember (name : String) :
    (Expr.member (.ident id) name).eval host ρ m = .ok (contextMember m.context name) m :=
  bind_ok (readName_of_lookup? hroot)

theorem eval_bucket : (Expr.member (.ident id) k.name).eval host ρ m = .ok (.bucket k) m := by
  rw [eval_contextMember hroot]
  cases k <;> rfl

theorem eval_slotOf : (Expr.slotOf id k slot).eval host ρ m = .ok (m.context.slot k slot) m :=
  bind_ok (eval_bucket hroot host k)

theorem write_slotOf (u : Value) :
    (Expr.slotOf id k slot).write host ρ u m = storeSlot k slot u m :=
  bind_ok (eval_bucket hroot host k)

end Slots

/-- A slot takes the value of a series, not the series. -/
theorem initValue_ok (hm : Orderly root m) (hv : Fits root (shape root) m.heap v) (offset : Value) :
    ∃ u, initValue v offset m = .ok u m ∧ ¬ u.IsSeries ∧ Fits root (shape root) m.heap u := by
  cases v with
  | series r o => exact ⟨_, rfl, hm.tamed.sound.seriesGet _ _, hm.tamed.seriesGet trivial _ _ _⟩
  | func f ρ => exact ⟨_, rfl, id, hv⟩
  | _ => exact ⟨_, rfl, id, trivial⟩

/-- A machine with one more slot, or with another history in it. -/
def withSlot (m : Machine) (k : Bucket) (slot : String) (u : Value) : Machine where
  heap := (m.heap.newHistory (.withCurrent u m.context.config.maxHistory)).2
  context := m.context.setSlot k slot m.heap.histories.size

theorem Orderly.withSlot (hm : Orderly root m) (hns : ¬ v.IsSeries)
    (hfit : Fits root (shape root) m.heap v)
    (k : Bucket) (slot : String) : Orderly root (withSlot m k slot v) := by
  have hvalues := History.values_withCurrent v m.context.config.maxHistory
  refine ⟨hm.tamed.newHistory fun u hu => ?_, (hm.apart.newHistory rfl).setSlot k slot ?_ ?_ ?_⟩
  · rw [hvalues, mem_singleton] at hu
    exact hu ▸ ⟨hns, hfit⟩
  · exact hm.apart.fresh
  · exact size_lt_newHistory _ _
  · rw [Heap.history_newHistory, if_pos rfl, hvalues]
    exact cons_ne_nil _ _

/-- A slot may get a new history if it was missing at the beginning. -/
theorem Grown.withSlot (hma : Grown root m a) {k : Bucket} {slot : String}
    (hslot : (m.context.slots k).get? slot = none) : Grown root m (withSlot a k slot v) where
  heap := by
    refine hma.heap.trans (.newHistory ?_)
    rw [History.values_withCurrent]
    rfl
  config := by
    refine Eq.trans ?_ hma.config
    cases k <;> rfl
  steps := by
    refine Eq.trans ?_ hma.steps
    cases k <;> rfl
  slots q t r hr := by
    show ((a.context.setSlot k slot _).slots q).get? t = some r
    rw [Context.slots_setSlot]
    split
    · rename_i hk
      subst hk
      have hne : slot ≠ t := by
        rintro rfl
        rw [hslot] at hr
        cases hr
      rw [Dict.get?_insert_of_ne _ hne]
      exact hma.slots k t r hr
    · exact hma.slots q t r hr
  created q t r hnone hsome := by
    have hget : ((a.context.setSlot k slot a.heap.histories.size).slots q).get? t = some r := hsome
    rw [Context.slots_setSlot] at hget
    split at hget
    · rename_i hk
      rcases (Dict.get?_insert_eq_some_iff _ _ _ _ _).1 hget with ⟨-, rfl⟩ | ⟨-, hget⟩
      · exact hma.heap.size
      · exact hma.created q t r hnone (hk ▸ hget)
    · exact hma.created q t r hnone hget

/-- Storing the history that a slot has changes nothing. -/
theorem setSlot_of_get? {k : Bucket} {slot : String} {r : Ref} (hk : (m.context.slots k).Ordered)
    (hr : (m.context.slots k).get? slot = some r) : m.context.setSlot k slot r = m.context := by
  have hinsert := hk.insert_of_get? hr
  cases k with
  | «let» => exact congrArg (fun lets => { m.context with lets }) hinsert
  | const => exact congrArg (fun consts => { m.context with consts }) hinsert

/-- What a declaration does once the value is there: `view` is what the slot
showed before. -/
def declareSlot (k : Bucket) (slot : String) (view v : Value) : Exec Value := do
  let u ← init view v .na
  storeSlot k slot u
  return u

/-- **Declaring a slot.** The declaration is compared with the machine it began
on: there the slot was missing, and then a new history is named, or it was there
already, and then nothing but its current bar changes. -/
theorem declareSlot_endings {k : Bucket} {slot : String} (hma : Grown root m a)
    (ha : Orderly root a) (hv : Fits root (shape root) a.heap v) :
    (base root).Endings m (base root).val (declareSlot k slot (m.context.slot k slot) v a)
      (declareSlot k slot (m.context.slot k slot) v a) := by
  obtain ⟨u, hu, hns, hfit⟩ := initValue_ok ha hv .na
  have hinit : ∀ view, init view v .na a = initSlot view u a := fun view => by
    rw [init_eq, bind_ok hu]
  unfold declareSlot Context.slot Context.view
  cases hslot : (m.context.slots k).get? slot with
  | none =>
    rw [bind_congr (hinit .na)]
    exact .ok (hma.withSlot hslot) ⟨rfl, rfl, ha.withSlot hns hfit k slot⟩ ⟨rfl, trivial⟩
  | some r =>
    rw [bind_congr (hinit (.series r 0))]
    have hset : (base root).Steady a same
        (modifyHeap fun h => h.modifyHistory r fun s => s.setCurrent u) :=
      setCurrent_agree (o := 0) ⟨rfl, trivial⟩ ⟨⟨rfl, hfit⟩, hns⟩
    have hkeep := setSlot_of_get? (ha.apart.ordered k) (hma.slots k slot r hslot)
    show Endings _ m _ (.ok _ { a with heap := _, context := a.context.setSlot k slot r })
      (.ok _ { a with heap := _, context := a.context.setSlot k slot r })
    rw [hkeep]
    cases hset a a ⟨rfl, rfl, ha⟩ with
    | ok grown rel holds => exact .ok (hma.trans grown) rel ⟨rfl, trivial⟩

/-- Declaring a value comes to an end, and leaves frames alone. -/
theorem init_ok (view v offset : Value) (m : Machine) :
    ∃ u n, init view v offset m = .ok u n ∧ n.heap.frames = m.heap.frames := by
  cases v <;> cases view <;> exact ⟨_, _, rfl, rfl⟩

/-- Names are looked up in frames and nowhere else. -/
theorem lookup?_of_frames {h h' : Heap} (hf : h'.frames = h.frames) (ρ : Env) (x : String) :
    h'.lookup? ρ x = h.lookup? ρ x := by
  have hframe : ∀ r, h'.frame r = h.frame r := fun r => by
    unfold Heap.frame
    rw [hf]
  induction ρ with
  | nil => rfl
  | cons r ρ ih =>
    unfold Heap.lookup?
    rw [hframe, ih]

/-- What a declaration comes to, given how its value is evaluated. -/
theorem eval_declared {id id' id'' : Ident} (hid' : m.heap.lookup? ρ id'.name = some .context)
    (hid'' : m.heap.lookup? ρ id''.name = some .context) (host : Host) (k : Bucket) (slot : String)
    {e : Expr} (he : e.eval host ρ m = .ok v a) (hid : a.heap.lookup? ρ id.name = some .context) :
    (Expr.assign .assign (.slotOf id k slot)
      (.call (.member (.ident id') "init") [.slotOf id'' k slot, e])).eval host ρ m =
      declareSlot k slot (m.context.slot k slot) v a := by
  have hargs : Expr.evalList host ρ [.slotOf id'' k slot, e] m =
      .ok [m.context.slot k slot, v] a := by
    refine (bind_ok (eval_slotOf hid'' host k slot)).trans ?_
    refine bind_ok (bind_ok he)
  have hcall : (Expr.call (.member (.ident id') "init") [.slotOf id'' k slot, e]).eval host ρ m =
      init (m.context.slot k slot) v .na a :=
    (bind_ok (eval_contextMember hid' host "init")).trans (bind_ok hargs)
  obtain ⟨u, n, hinit, hframes⟩ := init_ok (m.context.slot k slot) v .na a
  have hstore : (Expr.slotOf id k slot).write host ρ u n = storeSlot k slot u n :=
    write_slotOf ((lookup?_of_frames hframes ρ id.name).trans hid) host k slot u
  unfold declareSlot
  rw [bind_ok hinit]
  refine (bind_ok (hcall.trans hinit)).trans ?_
  exact bind_congr hstore

theorem eval_declared_error {ρ : Env} {id id' id'' : Ident}
    (hid' : m.heap.lookup? ρ id'.name = some .context)
    (hid'' : m.heap.lookup? ρ id''.name = some .context) (host : Host) (k : Bucket) (slot : String)
    {e : Expr} {err : Halt} (he : e.eval host ρ m = .error err a) :
    (Expr.assign .assign (.slotOf id k slot)
      (.call (.member (.ident id') "init") [.slotOf id'' k slot, e])).eval host ρ m =
      .error err a := by
  refine bind_error ((bind_ok (eval_contextMember hid' host "init")).trans ?_)
  refine bind_error ((bind_ok (eval_slotOf hid'' host k slot)).trans ?_)
  exact bind_error (bind_error he)

/-! ## Assignments -/

section Assignments

variable {host host' : Host} {ρ ρ' : Env}

theorem declared_agree (hρ : (base root).env m ρ ρ') {id id' id'' : Ident} (hid : id.name = root)
    (hid' : id'.name = root) (hid'' : id''.name = root) (k : Bucket) (slot : String) {e : Expr}
    (he : (base root).Agree m (base root).val (e.eval host ρ) (e.eval host' ρ')) :
    (base root).Agree m (base root).val ((Expr.assign .assign (.slotOf id k slot)
        (.call (.member (.ident id') "init") [.slotOf id'' k slot, e])).eval host ρ)
      ((Expr.assign .assign (.slotOf id k slot)
        (.call (.member (.ident id') "init") [.slotOf id'' k slot, e])).eval host' ρ') := by
  obtain ⟨rfl, hρ⟩ := hρ
  rintro _ n ⟨rfl, rfl, hn⟩
  have hend := he n n ⟨rfl, rfl, hn⟩
  generalize hs : e.eval host ρ' n = s at hend
  generalize ht : e.eval host' ρ' n = t at hend
  cases hend with
  | ok grown rel holds =>
    obtain ⟨rfl, rfl, ha⟩ := rel
    obtain ⟨rfl, hv⟩ := holds
    have hroot := ha.reads (hρ.mono grown.heap.frame) hid
    rw [eval_declared (hn.reads hρ hid') (hn.reads hρ hid'') host k slot hs hroot,
      eval_declared (hn.reads hρ hid') (hn.reads hρ hid'') host' k slot ht hroot]
    exact declareSlot_endings grown ha hv
  | error rel =>
    rw [eval_declared_error (hn.reads hρ hid') (hn.reads hρ hid'') host k slot hs,
      eval_declared_error (hn.reads hρ hid') (hn.reads hρ hid'') host' k slot ht]
    exact .error rel

theorem writeSlot_agree (hρ : (base root).env m ρ ρ') {id : Ident} (hid : id.name = root)
    (k : Bucket) (slot : String) {v : Value} (hv : (base root).val m v v') :
    (base root).Agree m same ((Expr.index (.slotOf id k slot) (.number 0.0)).write host ρ v)
      ((Expr.index (.slotOf id k slot) (.number 0.0)).write host' ρ' v') := by
  obtain ⟨rfl, hρ⟩ := hρ
  obtain ⟨rfl, hv⟩ := hv
  rintro _ n ⟨rfl, rfl, hn⟩
  have hwrite : ∀ host, (Expr.index (.slotOf id k slot) (.number 0.0)).write host ρ' v' n =
      writeElement (n.context.slot k slot) (.number 0.0) v' n := fun host =>
    (bind_ok (eval_slotOf (hn.reads hρ hid) host k slot)).trans (bind_ok rfl)
  rw [hwrite, hwrite]
  unfold Context.slot Context.view
  cases (n.context.slots k).get? slot with
  | none => exact .error fun _ _ => ⟨n, .refl n, rfl, rfl, hn⟩
  | some r =>
    have hcurrent : (base root).Held n (n.heap.current v') (n.heap.current v') :=
      ⟨⟨rfl, hn.tamed.current trivial hv⟩, hn.tamed.sound.current v'⟩
    have hset : (base root).Steady n same
        (modifyHeap fun h => h.modifyHistory r fun s => s.setCurrent (n.heap.current v')) :=
      setCurrent_agree (o := 0) ⟨rfl, trivial⟩ hcurrent
    have hbar : (fun s => setBar s (0 + 0) (n.heap.current v')) =
        fun s => s.setCurrent (n.heap.current v') := funext fun s => History.setBar_zero s _
    rw [writeElement_series n.heap.position?_zero, hbar]
    split
    · exact .error fun _ he => nomatch he
    · exact hset n n ⟨rfl, rfl, hn⟩

theorem writeTarget_agree (hρ : (base root).env m ρ ρ') (ht : Target root target)
    {v : Value} (hv : (base root).val m v v') :
    (base root).Agree m same (target.write host ρ v) (target.write host' ρ' v') := by
  cases ht with
  | name hname => exact (mirror root).assignName_agree (define_agree hname) hρ hv
  | slot hid k slot => exact writeSlot_agree hρ hid k slot hv

end Assignments

variable (root) in
/-- **Tame scripts keep machines orderly**, and grow them at most. -/
def simulation : Simulation Machine where
  toResemblance := resemblance root
  newArray := newArray_agree
  newObject := newObject_agree
  newFrame := newFrame_agree
  newSeries hv := (newSeries_agree hv).weaken fun _ _ _ _ hr => ⟨by rw [hr.1], trivial⟩
  paramHistory := paramHistory_agree
  setCurrent := setCurrent_agree
  modifyArray := modifyArray_agree
  defineName hρ hv hname := (mirror root).defineName_agree (define_agree hname) hρ hv
  setKernels ks := by
    have hslots : ∀ (c : Context) k, { c with kernels := ks }.slots k = c.slots k :=
      fun c k => by cases k <;> rfl
    exact modifyContext_agree (.of_context rfl rfl (hslots _)) fun ha =>
      ha.of_context rfl (hslots _) rfl
  assign hshape _ hρ hparts := by
    cases hshape with
    | target ht =>
      refine Likeness.assign_agree (S := (resemblance root).toLikeness) ?_ (fun w hw => ?_)
        fun w hw v v' hv => ?_
      · exact hparts _ (by simp) _ (.refl _)
      · exact hparts _ (by simp) w hw
      · exact writeTarget_agree ((base root).env_mono hw hρ) ht hv
    | declared hid hid' hid'' k slot e =>
      exact declared_agree hρ hid hid' hid'' k slot (hparts e (by simp [Expr.parts]) _ (.refl _))
  update hshape _ hρ hparts := by
    refine Likeness.update_agree (S := (resemblance root).toLikeness) ?_ fun w hw x => ?_
    · exact hparts _ (by simp) _ (.refl _)
    · exact writeTarget_agree ((base root).env_mono hw hρ) hshape ⟨rfl, trivial⟩

end Tame

end BarScript

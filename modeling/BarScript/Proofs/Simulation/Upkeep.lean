import BarScript.Proofs.Stability.Bars

/-!
# Invariants of runs

An invariant of machines is a resemblance of a machine to itself. What is asked of
values is one thing in all cases: functions have the shape of the script, and what they
see is in order. So an invariant is given by what it is to be in order (an `Outlook`) and
by what each operation on the heap and on the context keeps (an `Upkeep`); that whole runs
keep it is shown together with what they tell (`Proofs.Trace.Watching`).
-/

namespace BarScript

open Machine Correspondence Exec

/-- What is asked of scripts and of the frames that their functions see. -/
structure Outlook where
  shape : Shape
  /-- What may become of a heap. -/
  le : Heap → Heap → Prop
  sees : Heap → Env → Prop
  refl : ∀ h, le h h
  trans : ∀ {a b c}, le a b → le b c → le a c
  sees_mono : ∀ {h h' ρ}, le h h' → sees h ρ → sees h' ρ
  /-- Only frames matter. -/
  le_of_frames : ∀ {h h'}, h'.frames = h.frames → le h h'

namespace Outlook

variable (O : Outlook)

abbrev Fits (h : Heap) : Value → Prop :=
  Value.Fits O.shape (O.sees h)

/-- What is asked of values that are kept in a history, an array or an object. -/
def Stores (h : Heap) (v : Value) : Prop :=
  ¬ v.IsSeries ∧ O.Fits h v

variable {O} {h h' : Heap} {v : Value}

theorem Fits.mono (hw : O.le h h') (hv : O.Fits h v) : O.Fits h' v :=
  Value.Fits.mono (fun _ => O.sees_mono hw) hv

end Outlook

/-- An invariant, with what operations do to it. -/
structure Upkeep extends Outlook where
  inv : Machine → Prop
  populated : ∀ {m}, inv m → m.heap.Populated (toOutlook.Fits m.heap)
  newHistory : ∀ {m} {s : History Value}, inv m → (∀ v ∈ s.values, toOutlook.Stores m.heap v) →
    inv { m with heap := (m.heap.newHistory s).2 }
  newArray : ∀ {m} {l : List Value}, inv m → (∀ v ∈ l, toOutlook.Stores m.heap v) →
    inv { m with heap := (m.heap.newArray l.toArray).2 }
  newObject : ∀ {m} {l : List (String × Value)}, inv m → (∀ p ∈ l, toOutlook.Stores m.heap p.2) →
    inv { m with heap := (m.heap.newObject (.ofList l)).2 }
  newFrame : ∀ {m} {l : List (String × Value)}, inv m → (∀ p ∈ l, toOutlook.Fits m.heap p.2) →
    (∀ p ∈ l, shape.name p.1) →
    le m.heap (m.heap.newFrame (.ofList l)).2 ∧
      inv { m with heap := (m.heap.newFrame (.ofList l)).2 } ∧
      ∀ ρ, sees m.heap ρ → sees (m.heap.newFrame (.ofList l)).2 (m.heap.frames.size :: ρ)
  modifyHistory : ∀ {m r} {f : History Value → History Value}, inv m →
    (∀ s, ∀ v ∈ (f s).values, toOutlook.Stores m.heap v ∨ v ∈ s.values) →
    inv { m with heap := m.heap.modifyHistory r f }
  modifyArray : ∀ {m r} {f : Array Value → Array Value}, inv m →
    (∀ a : Array Value, (∀ v ∈ a.toList, toOutlook.Stores m.heap v) →
      ∀ v ∈ (f a).toList, toOutlook.Stores m.heap v) →
    inv { m with heap := m.heap.modifyArray r f }
  insertField : ∀ {m r key v}, inv m → toOutlook.Stores m.heap v →
    inv { m with heap := m.heap.modifyObject r fun d => d.insert key v }
  define : ∀ {m r x v}, inv m → shape.name x → toOutlook.Fits m.heap v →
    le m.heap (m.heap.define r x v) ∧ inv { m with heap := m.heap.define r x v }
  /-- Of the context only the arguments of calls matter. -/
  context : ∀ {m} {c : Context}, inv m → c.params = m.context.params → inv { m with context := c }
  newParam : ∀ {m} {s : History Value} {key}, inv m → s.values = [] →
    m.context.params.get? key = none →
    inv ⟨(m.heap.newHistory s).2,
      { m.context with params := m.context.params.insert key m.heap.histories.size }⟩
  assigned : ∀ {op id e}, shape.expr (.assign op (.ident id) e) → shape.name id.name
  updated : ∀ {op first id}, shape.expr (.update op first (.ident id)) → shape.name id.name

namespace Upkeep

variable (U : Upkeep)

def base : Correspondence Heap where
  shape := U.shape
  le := U.le
  refl := U.refl
  trans := U.trans
  rel h m n := m.heap = h ∧ n = m ∧ U.inv m
  val h v v' := v' = v ∧ U.Fits h v
  env h ρ ρ' := ρ' = ρ ∧ U.sees h ρ
  val_mono hw hv := ⟨hv.1, hv.2.mono hw⟩
  env_mono hw hρ := ⟨hρ.1, U.sees_mono hw hρ.2⟩

variable {U} {w : Heap} {m : Machine}

theorem mirror : Mirror U.base U.sees where
  val := Iff.rfl
  env := Iff.rfl
  rel := by
    rintro _ m n ⟨rfl, rfl, hm⟩
    exact ⟨rfl, U.populated hm⟩

theorem stores_current (hm : U.inv m) (hv : U.Fits m.heap v) : U.Stores m.heap (m.heap.current v) :=
  ⟨(U.populated hm).sound.current v, (U.populated hm).current trivial hv⟩

variable (U) in
def resemblance : Resemblance Heap :=
  mirror (U := U).resemblance

/-! ## Work -/

section Work

variable {α : Type}

variable {l l' : List (String × Value)} {ρ ρ' : Env} {v' u u' : Value} {r r' : Ref}

theorem modifyHeap_agree {f : Heap → Heap}
    (h : ∀ m : Machine, m.heap = w → U.inv m → U.le w (f w) ∧ U.inv { m with heap := f w }) :
    U.base.Steady w same (modifyHeap f) := by
  rintro _ m ⟨rfl, rfl, hm⟩
  exact .ok (h m rfl hm).1 ⟨rfl, rfl, (h m rfl hm).2⟩ rfl

theorem modifyContext_agree (hf : ∀ c, (f c).params = c.params) :
    U.base.Steady w same (modifyContext f) := by
  rintro _ m ⟨rfl, rfl, hm⟩
  exact .ok (U.refl _) ⟨rfl, rfl, U.context hm (hf _)⟩ rfl

theorem newArray_agree {l l' : List Value} (hl : U.base.Items w l l') :
    U.base.Agree w U.base.Held (alloc fun h => h.newArray l.toArray)
      (alloc fun h => h.newArray l'.toArray) := by
  obtain ⟨rfl, hl⟩ := mirror.items_iff.1 hl
  rintro _ m ⟨rfl, rfl, hm⟩
  have hle : U.base.le m.heap (m.heap.newArray l'.toArray).2 := U.le_of_frames rfl
  exact .ok hle ⟨rfl, rfl, U.newArray hm hl⟩ ⟨⟨rfl, trivial⟩, id⟩

theorem newObject_agree (hl : U.base.Fields w l l') :
    U.base.Agree w U.base.val (alloc fun h => h.newObject (.ofList l))
      (alloc fun h => h.newObject (.ofList l')) := by
  obtain ⟨rfl, hl⟩ := entries_eq (P := U.base.Held w) (fun _ _ hv => hv.1.1) hl
  rintro _ m ⟨rfl, rfl, hm⟩
  have hle : U.base.le m.heap (m.heap.newObject (.ofList l')).2 := U.le_of_frames rfl
  exact .ok hle ⟨rfl, rfl, U.newObject hm fun p hp => ⟨(hl p hp).2, (hl p hp).1.2⟩⟩ ⟨rfl, trivial⟩

theorem newFrame_agree (hρ : U.base.env w ρ ρ') (hl : U.base.Entries w l l')
    (hnames : ∀ p ∈ l, U.shape.name p.1) :
    U.base.Agree w (fun w r r' => U.base.env w (r :: ρ) (r' :: ρ'))
      (alloc fun h => h.newFrame (.ofList l))
      (alloc fun h => h.newFrame (.ofList l')) := by
  obtain ⟨rfl, hρ⟩ := hρ
  obtain ⟨rfl, hl⟩ := entries_eq (P := U.base.val w) (fun _ _ hv => hv.1) hl
  rintro _ m ⟨rfl, rfl, hm⟩
  obtain ⟨hle, hinv, hsees⟩ := U.newFrame hm (fun p hp => (hl p hp).2) hnames
  exact .ok hle ⟨rfl, rfl, hinv⟩ ⟨rfl, hsees _ hρ⟩

theorem newSeries_agree (hv : U.base.Held w v v') :
    U.base.Agree w (fun w r r' => U.base.val w (.series r 0) (.series r' 0))
      (newSeries v) (newSeries v') := by
  obtain ⟨⟨rfl, hfit⟩, hns⟩ := hv
  rintro _ m ⟨rfl, rfl, hm⟩
  have hle : U.base.le m.heap
      (m.heap.newHistory (.withCurrent v' m.context.config.maxHistory)).2 := U.le_of_frames rfl
  refine .ok hle ⟨rfl, rfl, U.newHistory hm fun u hu => ?_⟩ ⟨rfl, trivial⟩
  rw [History.mem_withCurrent hu]
  exact ⟨hns, hfit⟩

theorem paramHistory_agree (id : String) :
    U.base.Steady w (fun w r r' => U.base.val w (.series r 0) (.series r' 0))
      (paramHistory id) := by
  rintro _ m ⟨rfl, rfl, hm⟩
  cases hr : m.context.params.get? id with
  | some r =>
    rw [paramHistory_of_get? hr]
    exact .ok (U.refl _) ⟨rfl, rfl, hm⟩ ⟨rfl, trivial⟩
  | none =>
    rw [paramHistory_of_none hr]
    have hle : U.base.le m.heap (m.heap.newHistory (.new m.context.config.maxHistory)).2 :=
      U.le_of_frames rfl
    exact .ok hle ⟨rfl, rfl, U.newParam hm rfl hr⟩ ⟨rfl, trivial⟩

theorem modifyHistory_agree {f : Heap → History Value → History Value}
    (hf : ∀ m, m.heap = w → U.inv m → ∀ s, ∀ v ∈ (f w s).values, U.Stores w v ∨ v ∈ s.values) :
    U.base.Steady w same (modifyHeap fun h => h.modifyHistory r (f h)) := by
  refine modifyHeap_agree fun m hw hm => ?_
  subst hw
  exact ⟨U.le_of_frames rfl, U.modifyHistory hm (hf m rfl hm)⟩

theorem setCurrent_agree (hr : U.base.val w (.series r o) (.series r' o))
    (hv : U.base.Held w v v') :
    U.base.Agree w same (modifyHeap fun h => h.modifyHistory r fun s => s.setCurrent v)
      (modifyHeap fun h => h.modifyHistory r' fun s => s.setCurrent v') := by
  cases hr.1
  obtain ⟨⟨rfl, hfit⟩, hns⟩ := hv
  refine modifyHistory_agree (f := fun _ s => s.setCurrent _) fun _ _ _ s u hu => ?_
  rcases History.mem_setCurrent hu with rfl | hu
  · exact .inl ⟨hns, hfit⟩
  · exact .inr hu

theorem modifyArray_agree (hr : U.base.val w (.array r) (.array r'))
    (hf : ∀ w', U.base.le w w' → ∀ a a' : Array Value, U.base.Items w' a.toList a'.toList →
      U.base.Items w' (f a).toList (f' a').toList) :
    U.base.Agree w same (modifyHeap fun h => h.modifyArray r f)
      (modifyHeap fun h => h.modifyArray r' f') := by
  cases hr.1
  rintro _ m ⟨rfl, rfl, hm⟩
  obtain ⟨heq, hkeeps⟩ := mirror.modifyArray_eq ⟨rfl, rfl, hm⟩ r (hf m.heap (U.refl _))
  show Endings _ m.heap _ (.ok () { m with heap := m.heap.modifyArray r f })
    (.ok () { m with heap := m.heap.modifyArray r f' })
  rw [heq]
  have hle : U.base.le m.heap (m.heap.modifyArray r f) := U.le_of_frames rfl
  exact .ok hle ⟨rfl, rfl, U.modifyArray hm hkeeps⟩ rfl

theorem define_agree (hname : U.shape.name name) (hv : U.Fits w v) :
    U.base.Steady w same (modifyHeap fun h => h.define r name v) :=
  modifyHeap_agree fun _ hw hm => by
    subst hw
    exact U.define hm hname hv

variable (U) in
/-- **What machines keep by themselves, the operations of the evaluator keep.** -/
def operations : Operations Heap where
  toResemblance := U.resemblance
  newArray := newArray_agree
  newObject := newObject_agree
  newFrame := newFrame_agree
  newSeries := newSeries_agree
  paramHistory := paramHistory_agree
  setCurrent := setCurrent_agree
  modifyArray := modifyArray_agree
  defineName hρ hv hname := mirror.defineName_agree (define_agree hname) hρ hv
  setKernels _ := modifyContext_agree fun _ => rfl

/-! ## Assignments -/

theorem storeSlot_agree (hv : U.base.val w v v') (b : Bucket) (name : String) :
    U.base.Agree w same (storeSlot b name v) (storeSlot b name v') := by
  rw [storeSlot_eq, storeSlot_eq]
  refine (U.operations.slotHistory_agree hv).bind fun w₁ _ r r' hr => ?_
  cases hr.1
  exact modifyContext_agree fun c => by cases b <;> rfl

theorem insertField_agree (hv : U.Fits w v) : U.base.Steady w same
      (modifyHeap fun h => h.modifyObject r fun d => d.insert key (h.current v)) :=
  modifyHeap_agree fun _ hw hm => by
    subst hw
    exact ⟨U.le_of_frames rfl, U.insertField hm (stores_current hm hv)⟩

theorem writeMember_agree (hu : U.base.val w u u') (hv : U.base.val w v v') (property : String) :
    U.base.Agree w same (writeMember u property v) (writeMember u' property v') := by
  obtain ⟨rfl, -⟩ := hu
  cases u' with
  | bucket b => exact storeSlot_agree hv b property
  | object r =>
    obtain ⟨rfl, hv⟩ := hv
    exact insertField_agree hv
  | _ => exact agree_fail _

theorem writeElement_agree (hu : U.base.val w u u') (hi : U.base.val w i i')
    (hv : U.base.val w v v') :
    U.base.Agree w same (writeElement u i v) (writeElement u' i' v') := by
  obtain ⟨rfl, -⟩ := hu
  obtain ⟨rfl, hi⟩ := hi
  obtain ⟨rfl, hv⟩ := hv
  refine (agree_heap_eq fun m n hmn => by rw [hmn.2.1]).bind_same fun w₁ hw₁ x => ?_
  refine (agree_heap_eq fun m n hmn => by rw [hmn.2.1]).bind_same fun w₂ hw₂ p => ?_
  have hv := (hv.mono hw₁).mono hw₂
  cases u' with
  | series r o =>
    cases p with
    | none => exact agree_fail _
    | some k =>
      have hset : U.base.Steady w₂ same
          (modifyHeap fun h => h.modifyHistory r fun s => setBar s (o + k) (h.current v')) := by
        refine modifyHistory_agree (f := fun h s => setBar s (o + k) (h.current v'))
          fun m hw hm s x hx => ?_
        subst hw
        rcases mem_setBar hx with rfl | hx
        · exact .inl (stores_current hm hv)
        · exact .inr hx
      show U.base.Steady w₂ same (if _ then _ else _)
      split
      · exact agree_throw _
      · exact hset
  | array r =>
    cases p with
    | none => exact agree_fail _
    | some k =>
      have hset : U.base.Steady w₂ same
          (modifyHeap fun h => h.modifyArray r fun a => setElement a k (h.current v')) := by
        refine modifyHeap_agree fun m hw hm => ?_
        subst hw
        refine ⟨U.le_of_frames rfl, U.modifyArray hm fun a ha x hx => ?_⟩
        rcases mem_setElement hx with rfl | rfl | hx
        · exact stores_current hm hv
        · exact ⟨id, trivial⟩
        · exact ha x hx
      show U.base.Steady w₂ same (if _ then _ else _)
      split
      · exact agree_fail _
      · exact hset
  | object r =>
    have hi : U.base.val w₂ i' i' := ⟨rfl, (hi.mono hw₁).mono hw₂⟩
    refine (U.operations.displayKey_agree hi).bind_same fun w₃ hw₃ key => ?_
    exact insertField_agree (hv.mono hw₃)
  | _ => exact agree_fail _

end Work

end Upkeep

end BarScript

import BarScript.Proofs.Sharing.Placement

/-!
# Scripts run inside a shared heap

A script run on a machine of its own, and on the same machine at its places in a
shared heap, does the same: every reading comes out alike, and every change is made
at the places of the machine or at new ones.
-/

namespace BarScript

open Machine Correspondence List Exec

variable {r r' : Ref} {l l' : List (String × Value)} {v v' : Value} {name : String} {ρ ρ' : Env}

theorem Heap.Sound.modifyArray_of_content {h : Heap} (hs : h.Sound) {f : Array Value → Array Value}
    (hf : ∀ v ∈ (f (h.array r)).toList, ¬ v.IsSeries) : (h.modifyArray r f).Sound := { hs with
  array q v hv := by
    rw [array_modifyArray] at hv
    split at hv
    · exact hf v hv
    · exact hs.array q v hv }

namespace Sharing

variable {a a' : Array Value} {s s' : History Value} {c c' : Context} {u u' : Value}
  {ind : Indicator}

/-- A machine of its own and the same machine in a shared heap. -/
def base (g : Heap) : Correspondence Places where
  shape := .any
  le := Places.Le g
  refl := .refl
  trans := .trans
  rel := Shared g
  val := Placed
  env := PlacedEnv
  val_mono hP h := h.mono hP
  env_mono hP h := h.mono hP

variable {g : Heap} {P : Places} {m n : Machine}

/-! ## New places -/

/-- What is on the heaps keeps its places when there are more of them. -/
theorem cells_later {P' : Places} (h : Shared g P m n) (hP : P.Le g P') :
    Cells (PlacedHistory P') P.histories m.heap.histories n.heap.histories g.histories ∧
      Cells (fun a a' => List.Forall₂ (Kept P') a.toList a'.toList) P.arrays m.heap.arrays
        n.heap.arrays g.arrays ∧
      Cells (PlacedEntries (Kept P')) P.objects m.heap.objects n.heap.objects g.objects ∧
      Cells (PlacedEntries (Placed P')) P.frames m.heap.frames n.heap.frames g.frames := by
  refine ⟨h.histories.mono ?_, h.arrays.mono ?_, h.objects.mono ?_, h.frames.mono ?_⟩
  · exact fun _ _ hs => hs.mono hP
  · exact fun _ _ hs => hs.imp fun _ _ hv => hv.mono hP
  · exact fun _ _ hs => hs.imp fun _ _ hv => ⟨hv.1, hv.2.mono hP⟩
  · exact fun _ _ hs => hs.imp fun _ _ hv => ⟨hv.1, hv.2.mono hP⟩

theorem getElem?_next {R : α → α → Prop} (h : Cells R places own shared rest) (r : Ref) :
    (places ++ [r])[own.size]? = some r := by
  rw [← h.length]
  exact getElem?_concat_length

theorem newArray_agree {l l' : List Value} (h : (base g).Items P l l') :
    (base g).Agree P (base g).Held (alloc fun h => h.newArray l.toArray)
      (alloc fun h => h.newArray l'.toArray) := by
  intro m n hmn
  have hl : List.Forall₂ (Kept P) l.toArray.toList l'.toArray.toList := h
  let P' : Places :=
    { P with
      arrays := P.arrays ++ [n.heap.arrays.size]
      arrays_nodup := (hmn.arrays.push hl).nodup }
  have hP : P.Le g P' := ⟨.refl, .one hmn.arrays.grown, .refl, .refl⟩
  obtain ⟨hh, ha, ho, hf⟩ := cells_later hmn hP
  have hl' := hl.imp fun _ _ hv => hv.mono hP
  exact .ok hP ⟨hmn.sound.newArray (not_isSeries_of_kept hl), hh, ha.push hl', ho, hf,
    hmn.context.mono hP⟩ ⟨.array (getElem?_next hmn.arrays _), id⟩

theorem newObject_agree (h : (base g).Fields P l l') :
    (base g).Agree P (base g).val (alloc fun h => h.newObject (.ofList l))
      (alloc fun h => h.newObject (.ofList l')) := by
  intro m n hmn
  have hd := PlacedEntries.ofList h
  let P' : Places :=
    { P with
      objects := P.objects ++ [n.heap.objects.size]
      objects_nodup := (hmn.objects.push hd).nodup }
  have hP : P.Le g P' := ⟨.refl, .refl, .one hmn.objects.grown, .refl⟩
  obtain ⟨hh, ha, ho, hf⟩ := cells_later hmn hP
  have hsound := hmn.sound.newObject (Dict.ordered_ofList l) (not_isSeries_of_kept hd.values)
  exact .ok hP ⟨hsound, hh, ha, ho.push (hd.imp fun _ _ hv => ⟨hv.1, hv.2.mono hP⟩), hf,
    hmn.context.mono hP⟩ (.object (getElem?_next hmn.objects _))

theorem newFrame_agree (hρ : PlacedEnv P ρ ρ') (h : (base g).Entries P l l') :
    (base g).Agree P (fun P r r' => PlacedEnv P (r :: ρ) (r' :: ρ'))
      (alloc fun h => h.newFrame (.ofList l))
      (alloc fun h => h.newFrame (.ofList l')) := by
  intro m n hmn
  have hP : P.Le g { P with frames := P.frames ++ [n.heap.frames.size] } :=
    ⟨.refl, .refl, .refl, .one hmn.frames.grown⟩
  obtain ⟨hh, ha, ho, hf⟩ := cells_later hmn hP
  have hd := PlacedEntries.ofList h
  exact .ok hP ⟨hmn.sound.newFrame _, hh, ha, ho,
    hf.push (hd.imp fun _ _ hv => ⟨hv.1, hv.2.mono hP⟩), hmn.context.mono hP⟩
    (.cons (getElem?_next hmn.frames _) (hρ.mono hP))

theorem newHistory_agree (hs : PlacedHistory P s s') :
    (base g).Agree P PlacedRef (alloc fun h => h.newHistory s)
      (alloc fun h => h.newHistory s') := by
  intro m n hmn
  have hP : P.Le g { P with histories := P.histories ++ [n.heap.histories.size] } :=
    ⟨.one hmn.histories.grown, .refl, .refl, .refl⟩
  obtain ⟨hh, ha, ho, hf⟩ := cells_later hmn hP
  exact .ok hP ⟨hmn.sound.newHistory (not_isSeries_of_kept hs.2), hh.push (hs.mono hP), ha, ho, hf,
    hmn.context.mono hP⟩ (getElem?_next hmn.histories _)

theorem newSeries_agree (hv : Kept P v v') :
    (base g).Agree P (fun P r r' => Placed P (.series r 0) (.series r' 0))
      (newSeries v) (newSeries v') := by
  refine (agree_context_eq fun m n hmn => by rw [hmn.context.config]).bind_same
    fun P₁ hP₁ capacity => ?_
  have hs : PlacedHistory P₁ (.withCurrent v capacity) (.withCurrent v' capacity) :=
    (placedHistory_new capacity).push (hv.mono hP₁)
  exact (newHistory_agree hs).weaken fun _ _ _ _ hr => .series hr 0

/-! ## Changes -/

theorem modifyContext_agree (hf : ∀ c c', PlacedContext P c c' → PlacedContext P (f c) (f' c')) :
    (base g).Agree P same (modifyContext f) (modifyContext f') :=
  fun _ _ hmn => Endings.here
    ⟨hmn.sound, hmn.histories, hmn.arrays, hmn.objects, hmn.frames, hf _ _ hmn.context⟩ rfl

theorem paramHistory_agree (id : String) :
    (base g).Steady P (fun P r r' => Placed P (.series r 0) (.series r' 0))
      (paramHistory id) := by
  have hparams : (base g).Steady P (fun P => Option.Rel (PlacedRef P))
      (Exec.context fun c => c.params.get? id) :=
    agree_context fun _ _ hmn => hmn.context.params.get? id
  refine hparams.bind fun P₁ _ o o' ho => ?_
  cases ho with
  | some hr => exact agree_pure (.series hr 0)
  | none =>
    refine (agree_context_eq fun m n hmn => by rw [hmn.context.config]).bind_same
      fun P₂ _ capacity => ?_
    refine (newHistory_agree (placedHistory_new capacity)).bind fun P₃ _ r r' hr => ?_
    have hset : (base g).Agree P₃ same
        (modifyContext fun c => { c with params := c.params.insert id r })
        (modifyContext fun c => { c with params := c.params.insert id r' }) :=
      modifyContext_agree fun _ _ hc => { hc with params := hc.params.insert id hr }
    exact hset.bind fun P₄ hP₄ _ _ _ => agree_pure (.series (hP₄.histories.get hr) 0)

theorem modifyHistory_agree (hr : P.histories[r]? = some r')
    {f f' : Heap → History Value → History Value}
    (hsound : ∀ h : Heap, h.Sound → ∀ s : History Value, (∀ v ∈ s.values, ¬ v.IsSeries) →
      ∀ v ∈ (f h s).values, ¬ v.IsSeries)
    (hf : ∀ m n, Shared g P m n → ∀ s s', PlacedHistory P s s' →
      PlacedHistory P (f m.heap s) (f' n.heap s')) :
    (base g).Agree P same (modifyHeap fun h => h.modifyHistory r (f h))
      (modifyHeap fun h => h.modifyHistory r' (f' h)) :=
  fun m n hmn => Endings.here
    ⟨hmn.sound.modifyHistory (hsound m.heap hmn.sound), hmn.histories.modify hr (hf m n hmn),
      hmn.arrays, hmn.objects, hmn.frames, hmn.context⟩ rfl

theorem setCurrent_agree (hr : Placed P (.series r o) (.series r' o)) (hv : Kept P v v') :
    (base g).Agree P same (modifyHeap fun h => h.modifyHistory r fun s => s.setCurrent v)
      (modifyHeap fun h => h.modifyHistory r' fun s => s.setCurrent v') := by
  cases hr with
  | free h => exact h.elim
  | series hr =>
    refine modifyHistory_agree hr (fun _ _ s hs u hu => ?_) fun _ _ _ s s' hs => hs.setCurrent hv
    rcases History.mem_setCurrent hu with rfl | hu
    · exact hv.2
    · exact hs u hu

theorem modifyArray_agree (hr : Placed P (.array r) (.array r'))
    (hf : ∀ P', P.Le g P' → ∀ a a' : Array Value, (base g).Items P' a.toList a'.toList →
      (base g).Items P' (f a).toList (f' a').toList) :
    (base g).Agree P same (modifyHeap fun h => h.modifyArray r f)
      (modifyHeap fun h => h.modifyArray r' f') := by
  intro m n hmn
  cases hr with
  | free h => exact h.elim
  | array hr =>
    have hcontent := hf P (.refl P) _ _ (hmn.arrays.getD hr #[] #[])
    exact Endings.here
      ⟨hmn.sound.modifyArray_of_content (not_isSeries_of_kept hcontent), hmn.histories,
        hmn.arrays.modify hr fun a a' ha => hf P (.refl P) a a' ha, hmn.objects, hmn.frames,
        hmn.context⟩ rfl

theorem define_agree (hr : P.frames[r]? = some r') (hv : Placed P v v') :
    (base g).Agree P same (modifyHeap fun h => h.define r name v)
      (modifyHeap fun h => h.define r' name v') :=
  fun _ _ hmn => Endings.here ⟨hmn.sound.define name v, hmn.histories, hmn.arrays, hmn.objects,
      hmn.frames.modify hr fun _ _ hd => hd.insert name hv, hmn.context⟩ rfl

theorem defineName_agree (hρ : PlacedEnv P ρ ρ') (hv : Placed P v v') :
    (base g).Agree P same (defineName ρ name v) (defineName ρ' name v') := by
  cases hρ with
  | nil => exact agree_pure rfl
  | cons hr _ => exact define_agree hr hv

theorem frame_entries (hmn : Shared g P m n) (hr : P.frames[r]? = some r') (name : String) :
    Option.Rel (Placed P) ((m.heap.frame r).get? name) ((n.heap.frame r').get? name) :=
  (hmn.frames.getD hr .empty .empty).get? name

theorem assignName_agree (hρ : PlacedEnv P ρ ρ') (hv : Placed P v v') :
    (base g).Agree P same (assignName ρ name v) (assignName ρ' name v') := by
  have hframe : ∀ m n, Shared g P m n →
      Option.Rel (fun r r' => P.frames[r]? = some r') (m.heap.frameOf? ρ name)
        (n.heap.frameOf? ρ' name) := fun m n hmn => by
    induction hρ with
    | nil => exact .none
    | @cons r r' ρ ρ' hr _ ih =>
      unfold Heap.frameOf?
      have hget := frame_entries hmn hr name
      generalize (m.heap.frame r).get? name = o, (n.heap.frame r').get? name = o' at hget ⊢
      cases hget with
      | some _ => exact .some hr
      | none => exact ih
  refine (agree_heap (Q := fun P => Option.Rel fun r r' => P.frames[r]? = some r') hframe).bind
    fun P₁ hP₁ o o' ho => ?_
  cases ho with
  | some hr => exact define_agree hr (hv.mono hP₁)
  | none => exact agree_fail _

/-! ## Readings -/

theorem seriesValues_items (hmn : Shared g P m n) (hr : P.histories[r]? = some r') (o : Nat) :
    (base g).Items P (m.heap.seriesValues r o) (n.heap.seriesValues r' o) :=
  forall₂_drop o (hmn.histories.getD hr {} {}).2

theorem current_kept (hmn : Shared g P m n) (hv : Placed P v v') :
    Kept P (m.heap.current v) (n.heap.current v') := by
  cases hv with
  | series hr o =>
    show Kept P (m.heap.seriesGet _ o 0) (n.heap.seriesGet _ o 0)
    rw [Heap.seriesGet_eq, Heap.seriesGet_eq]
    have hget := forall₂_getElem? (seriesValues_items hmn hr o) 0
    generalize (m.heap.seriesValues _ o)[0]? = x, (n.heap.seriesValues _ o)[0]? = y at hget ⊢
    cases hget with
    | some hv => exact hv
    | none => exact ⟨.free trivial, id⟩
  | @free v h =>
    cases v with
    | array | object | series | func => exact h.elim
    | _ => exact ⟨.free trivial, id⟩
  | array h => exact ⟨.array h, id⟩
  | object h => exact ⟨.object h, id⟩
  | func h f => exact ⟨.func h f, id⟩

/-- Reading goes on in the shared heap for more steps, but one is enough. -/
theorem settle_placed (hmn : Shared g P m n) (hv : Placed P v v') :
    Placed P (m.heap.settle v) (n.heap.settle v') := by
  have hcur := current_kept hmn hv
  have hsettle : n.heap.settle v' = n.heap.current v' := by
    cases v' with
    | series r o =>
      show n.heap.settleWithin (_ + 1) (n.heap.seriesGet r o 0) = n.heap.seriesGet r o 0
      change Kept P _ (n.heap.seriesGet r o 0) at hcur
      revert hcur
      generalize n.heap.seriesGet r o 0 = u
      generalize m.heap.current v = u₀
      rintro ⟨hu, hns⟩
      cases hu with
      | series h o => exact absurd trivial hns
      | @free u h => cases u <;> first | exact h.elim | rfl
      | _ => rfl
    | _ => rfl
  rw [hmn.sound.settle_eq_current, hsettle]
  exact hcur.1

theorem view_placed (h : PlacedEntries (PlacedRef P) d d') (name : String) :
    Placed P (Context.view d name) (Context.view d' name) := by
  have hget := h.get? name
  unfold Context.view
  generalize d.get? name = o, d'.get? name = o' at hget ⊢
  cases hget with
  | some hr => exact .series hr 0
  | none => exact .free trivial

theorem place_inj {p : List Ref} (hp : p.Nodup) {a a' b b' : Ref} (ha : p[a]? = some a')
    (hb : p[b]? = some b') : a = b ↔ a' = b' := by
  constructor
  · rintro rfl
    exact Option.some.inj (ha.symm.trans hb)
  · rintro rfl
    exact (getElem?_inj (List.getElem?_eq_some_iff.1 ha).1 hp).1 (ha.trans hb.symm)

variable (g) in
/-- Nothing is read differently in a shared heap. -/
def resemblance : Resemblance Places where
  toCorrespondence := base g
  alike h := by
    cases h with
    | free h => exact .refl _
    | array h => exact .array _ _
    | object h => exact .object _ _
    | series h o => exact .series _ _ o
    | func h f => exact .func f _ _
  free h := .free h
  func hρ _ := .func hρ _
  func_inv h := by
    cases h with
    | free h => exact h.elim
    | func h => exact ⟨h, Func.all_any _⟩
  shifted h k := by
    cases h with
    | free h => exact h.elim
    | series h o => exact .series h k
  settle hmn hv := settle_placed hmn hv
  seriesValues hmn h := by
    cases h with
    | free h => exact h.elim
    | series h => exact seriesValues_items hmn h _
  arrayItems hmn h := by
    cases h with
    | free h => exact h.elim
    | array h => exact Cells.getD (Shared.arrays hmn) h #[] #[]
  objectEntries hmn h := by
    cases h with
    | free h => exact h.elim
    | object h => exact Cells.getD (Shared.objects hmn) h .empty .empty
  array_eq ha hb := by
    cases ha with
    | free h => exact h.elim
    | array ha =>
      cases hb with
      | free h => exact h.elim
      | array hb => exact place_inj (Places.arrays_nodup _) ha hb
  object_eq ha hb := by
    cases ha with
    | free h => exact h.elim
    | object ha =>
      cases hb with
      | free h => exact h.elim
      | object hb => exact place_inj (Places.objects_nodup _) ha hb
  sound hmn := Shared.sound hmn
  depth hmn := by
    have harrays := (Shared.arrays hmn).size_le
    have hobjects := (Shared.objects hmn).size_le
    simp only [Heap.places, Heap.depthBound]
    omega
  lookup {P m n ρ ρ'} hmn hρ x := by
    induction hρ with
    | nil => exact .none
    | @cons r r' ρ ρ' hr _ ih =>
      unfold Heap.lookup?
      have hget := frame_entries hmn hr x
      revert hget
      generalize (m.heap.frame r).get? x = o
      generalize (n.heap.frame r').get? x = o'
      intro hget
      cases hget with
      | some hv => exact .some hv
      | none => exact ih
  config hmn := (Shared.context hmn).config
  steps hmn := (Shared.context hmn).steps
  kernels hmn := (Shared.context hmn).kernels
  dataSeries hmn x := view_placed (Shared.context hmn).data x
  slot hmn b x := by
    cases b with
    | «let» => exact view_placed (Shared.context hmn).lets x
    | const => exact view_placed (Shared.context hmn).consts x

variable (g) in
def operations : Operations Places where
  toResemblance := resemblance g
  newArray := newArray_agree
  newObject := newObject_agree
  newFrame hρ hl _ := newFrame_agree hρ hl
  newSeries := newSeries_agree
  paramHistory := paramHistory_agree
  setCurrent := setCurrent_agree
  modifyArray := modifyArray_agree
  defineName hρ hv _ := defineName_agree hρ hv
  setKernels _ := modifyContext_agree fun _ _ hc => { hc with kernels := rfl }

/-! ## Assignments -/

theorem setSlot_placed (hc : PlacedContext P c c') (b : Bucket) (name : String)
    (hr : PlacedRef P r r') : PlacedContext P (c.setSlot b name r) (c'.setSlot b name r') := by
  cases b with
  | «let» => exact { hc with lets := hc.lets.insert name hr }
  | const => exact { hc with consts := hc.consts.insert name hr }

theorem storeSlot_agree (hv : Placed P v v') (b : Bucket) (name : String) :
    (base g).Agree P same (storeSlot b name v) (storeSlot b name v') := by
  rw [storeSlot_eq, storeSlot_eq]
  refine ((operations g).slotHistory_agree hv).bind fun _ _ r r' hr => ?_
  cases hr with
  | free h => exact h.elim
  | series hr => exact modifyContext_agree fun _ _ hc => setSlot_placed hc b name hr

theorem insertField_agree (hr : P.objects[r]? = some r') (hv : Placed P v v') :
    (base g).Agree P same (modifyHeap fun h => h.modifyObject r fun d => d.insert key (h.current v))
      (modifyHeap fun h => h.modifyObject r' fun d => d.insert key (h.current v')) :=
  fun _ _ hmn => Endings.here
    ⟨hmn.sound.insertField (hmn.sound.current v), hmn.histories, hmn.arrays,
      hmn.objects.modify hr fun _ _ hd => hd.insert key (current_kept hmn hv), hmn.frames,
      hmn.context⟩ rfl

theorem writeMember_agree (hu : Placed P u u') (hv : Placed P v v') (property : String) :
    (base g).Agree P same (writeMember u property v) (writeMember u' property v') := by
  cases hu with
  | object hr => exact insertField_agree hr hv
  | @free u h =>
    cases u with
    | bucket b => exact storeSlot_agree hv b property
    | object => exact h.elim
    | _ => exact agree_fail _
  | _ => exact agree_fail _

theorem writeSeries_agree (hr : P.histories[r]? = some r') (hv : Placed P v v') (i : Nat) :
    (base g).Agree P same
      (do if showsHistory r v then throw .sharedWrite
          modifyHeap fun h => h.modifyHistory r fun s => setBar s i (h.current v))
      (do if showsHistory r' v' then throw .sharedWrite
          modifyHeap fun h => h.modifyHistory r' fun s => setBar s i (h.current v')) := by
  refine agree_of_rel fun _ _ hmn => ?_
  have hshows : showsHistory r v = showsHistory r' v' := by
    cases hv with
    | series hs o =>
      show (_ == r) = (_ == r')
      rw [Bool.eq_iff_iff, beq_iff_eq, beq_iff_eq]
      exact place_inj hmn.histories.nodup hs hr
    | @free v h =>
      cases v with
      | series => exact h.elim
      | _ => rfl
    | _ => rfl
  rw [hshows]
  have hset : (base g).Agree P same
      (modifyHeap fun h => h.modifyHistory r fun s => setBar s i (h.current v))
      (modifyHeap fun h => h.modifyHistory r' fun s => setBar s i (h.current v')) := by
    refine modifyHistory_agree hr (fun h hs s hsv x hx => ?_) fun m n hmn s s' hs =>
      hs.setBar i (current_kept hmn hv)
    rcases mem_setBar hx with rfl | hx
    · exact hs.current v
    · exact hsv x hx
  split
  · exact agree_throw _
  · exact hset

theorem setElement_kept (h : List.Forall₂ (Kept P) a.toList a'.toList) (i : Nat)
    (hv : Kept P v v') :
    List.Forall₂ (Kept P) (setElement a i v).toList (setElement a' i v').toList := by
  have hsize : a'.size = a.size := by
    rw [← Array.length_toList, ← Array.length_toList, h.length_eq]
  have hna : ∀ k : Nat, List.Forall₂ (Kept P) (List.replicate k Value.na)
      (List.replicate k Value.na) := fun k =>
    forall₂_same.2 fun x hx => by
      rw [eq_of_mem_replicate hx]
      exact ⟨.free trivial, id⟩
  unfold setElement
  rw [hsize]
  split
  · rw [Array.toList_setIfInBounds, Array.toList_setIfInBounds]
    exact forall₂_set h i hv
  · simp only [Array.toList_push, Array.toList_append, Array.toList_replicate]
    exact rel_append (rel_append h (hna _)) (.cons hv .nil)

theorem writeArray_agree (hr : P.arrays[r]? = some r') (hv : Placed P v v') (i : Nat)
    (e : RuntimeError) : (base g).Agree P same
      (do if maxLength ≤ i then fail e
          modifyHeap fun h => h.modifyArray r fun a => setElement a i (h.current v))
      (do if maxLength ≤ i then fail e
          modifyHeap fun h => h.modifyArray r' fun a => setElement a i (h.current v')) := by
  have hset : (base g).Agree P same
      (modifyHeap fun h => h.modifyArray r fun a => setElement a i (h.current v))
      (modifyHeap fun h => h.modifyArray r' fun a => setElement a i (h.current v')) :=
    fun m n hmn => modifyArray_agree (.array hr)
      (fun _ hP _ _ ha => setElement_kept ha i ((current_kept hmn hv).mono hP)) m n hmn
  split
  · exact agree_fail _
  · exact hset

theorem writeElement_agree (hu : Placed P u u') (hi : Placed P i i')
    (hv : Placed P v v') : (base g).Agree P same (writeElement u i v) (writeElement u' i' v') := by
  let S := resemblance g
  refine (agree_heap_eq fun m n hmn => S.number_eq hmn hi).bind_same fun P₁ hP₁ x => ?_
  have hi := hi.mono hP₁
  refine (agree_heap_eq fun m n hmn => S.position?_eq hmn hi).bind_same fun P₂ hP₂ p => ?_
  have hi := hi.mono hP₂
  have hv := (hv.mono hP₁).mono hP₂
  have hu := (hu.mono hP₁).mono hP₂
  cases hu with
  | series hr o =>
    cases p with
    | some k => exact writeSeries_agree hr hv (o + k)
    | none => exact agree_fail _
  | array hr =>
    cases p with
    | some k => exact writeArray_agree hr hv k _
    | none => exact agree_fail _
  | object hr =>
    refine ((operations g).displayKey_agree hi).bind_same fun P₃ hP₃ key => ?_
    exact insertField_agree (hP₃.objects.get hr) (hv.mono hP₃)
  | @free u h =>
    cases u with
    | array | object | series | func => exact h.elim
    | _ => exact agree_fail _
  | func h f => exact agree_fail _

theorem write_agree {target : Expr} (hρ : PlacedEnv P ρ ρ')
    (hparts : ∀ e ∈ target.parts, ∀ P', P.Le g P' →
      (base g).Agree P' Placed (e.eval host ρ) (e.eval host' ρ')) (hv : Placed P v v') :
    (base g).Agree P same (target.write host ρ v) (target.write host' ρ' v') := by
  cases target with
  | ident id => exact assignName_agree hρ hv
  | member e property =>
    refine (hparts e mem_cons_self P (.refl P)).bind fun P₁ hP₁ u u' hu => ?_
    exact writeMember_agree hu (hv.mono hP₁) property
  | index e sub =>
    refine (hparts e mem_cons_self P (.refl P)).bind fun P₁ hP₁ u u' hu => ?_
    refine (hparts sub (mem_cons_of_mem e mem_cons_self) P₁ hP₁).bind fun P₂ hP₂ i i' hi => ?_
    exact writeElement_agree (hu.mono hP₂) hi ((hv.mono hP₁).mono hP₂)
  | _ => exact agree_fail _

variable (g) in
/-- **A script runs inside a shared heap as it does on a heap of its own.** -/
def simulation : Simulation Places where
  toOperations := operations g
  assign _ _ hρ hparts := by
    refine Likeness.assign_agree (S := (resemblance g).toLikeness) ?_ (fun P' hP => ?_)
      fun P' hP v v' hv => ?_
    · exact hparts _ (by simp) _ (.refl _)
    · exact hparts _ (by simp) P' hP
    · exact write_agree (PlacedEnv.mono hP hρ)
        (fun e he P'' hP' => hparts e (by simp [he]) P'' (hP.trans hP')) hv
  update _ _ hρ hparts := by
    refine Likeness.update_agree (S := (resemblance g).toLikeness) ?_ fun P' hP x => ?_
    · exact hparts _ (by simp) _ (.refl _)
    · exact write_agree (PlacedEnv.mono hP hρ)
        (fun e he P'' hP' => hparts e (by simp [he]) P'' (hP.trans hP')) (.free trivial)

/-! ## Bars -/

theorem advanceAll_agree (h : List.Forall₂ (PlacedRef P) refs refs') : (base g).Agree P same
      (modifyHeap fun h => refs.foldl (fun h r => h.modifyHistory r History.advance) h)
      (modifyHeap fun h => refs'.foldl (fun h r => h.modifyHistory r History.advance) h) := by
  intro m n hmn
  refine Endings.here ?_ rfl
  induction h generalizing m n with
  | nil => exact hmn
  | @cons r r' refs refs' hr _ ih =>
    refine ih { m with heap := m.heap.modifyHistory r History.advance }
      { n with heap := n.heap.modifyHistory r' History.advance }
      ⟨hmn.sound.modifyHistory fun s hs v hv => ?_, ?_, hmn.arrays, hmn.objects, hmn.frames,
        hmn.context⟩
    · exact hs v (History.mem_advance hv)
    · exact hmn.histories.modify hr fun _ _ hs => hs.advance

theorem setData_agree (name : String) (x : Float) :
    (base g).Steady P same (setData name x) := by
  have hx : ∀ P, Kept P (.number x) (.number x) := fun _ => ⟨.free trivial, id⟩
  have hdata : (base g).Steady P (fun P => Option.Rel (PlacedRef P))
      (Exec.context fun c => c.data.get? name) :=
    agree_context fun _ _ hmn => hmn.context.data.get? name
  refine hdata.bind fun P₁ _ o o' ho => ?_
  cases ho with
  | some hr => exact setCurrent_agree (.series hr 0) (hx P₁)
  | none =>
    refine (newSeries_agree (hx P₁)).bind fun P₂ _ r r' hr => ?_
    cases hr with
    | free h => exact h.elim
    | series hr =>
      exact modifyContext_agree fun _ _ hc => { hc with data := hc.data.insert name hr }

theorem named_placed (hc : PlacedContext P c c') : List.Forall₂ (PlacedRef P) c.named c'.named :=
  rel_append (rel_append (rel_append hc.data.values hc.lets.values)
    hc.consts.values) hc.params.values

theorem beginStep_agree (candle : Candle) :
    (base g).Steady P same (beginStep candle) := by
  have hcontext : (base g).Steady P PlacedContext (Exec.context id) :=
    agree_context fun _ _ hmn => hmn.context
  refine hcontext.bind fun P₁ hP₁ c c' hc => ?_
  have hrest : ∀ P', (base g).Steady P' same
      (do modifyContext fun c => { c with steps := c.steps + 1 }
          (candleFields candle).forM fun p => setData p.1 p.2) := fun P' => by
    have hcount : (base g).Steady P' same
        (modifyContext fun c => { c with steps := c.steps + 1 }) :=
      modifyContext_agree fun _ _ hc => { hc with steps := congrArg (· + 1) hc.steps }
    refine hcount.bind fun P₂ _ _ _ _ => ?_
    exact (simulation g).forM_agree (candleFields candle) fun p _ _ _ => setData_agree p.1 p.2
  rw [← hc.steps]
  split
  · exact (advanceAll_agree (named_placed hc)).bind fun P₂ _ _ _ _ => hrest P₂
  · exact hrest P₁

/-- **One bar**, on a machine of its own and inside a shared heap. -/
theorem bar_agree (hfree : ind.receiver.IsFree) (c : Candle) :
    (base g).Steady P same (ind.bar c) := by
  refine (beginStep_agree c).bind fun P₁ _ _ _ _ => ?_
  have hroot : ∀ P', P₁.Le g P' → (base g).Steady P' (fun P r r' => PlacedEnv P [r] [r'])
        (alloc fun h => h.newFrame .empty) :=
    fun _ _ => newFrame_agree .nil .nil
  refine ((simulation g).run_agree (Func.all_any _) (Placed.free hfree) hroot).bind
    fun P₂ _ v v' hv => ?_
  exact agree_heap?_eq fun _ _ hmn => (resemblance g).collapsed?_eq hmn hv

theorem rows_agree (hfree : ind.receiver.IsFree) (cs : List Candle) :
    (base g).Steady P same (ind.rows cs) := by
  induction cs generalizing P with
  | nil => exact agree_pure rfl
  | cons c cs ih =>
    refine (bar_agree hfree c).bind_same fun _ _ v => ?_
    refine ih.bind_same fun _ _ rows => ?_
    exact agree_pure rfl

end Sharing

end BarScript

import BarScript.Proofs.Retention.Work

/-!
# Steps of the evaluator on histories that forget

Every reading and every change that a script makes, and every call of a namespace
function, ends the same way on histories that forget, if the places that its trace
lists are ones that they keep.
-/

namespace BarScript

open Machine Heap

variable {c : Nat} {m : Machine} (hm : Unbounded m)

variable {base index v value offset : Value}

/-! ## Names -/

theorem same_defineName (hm : Unbounded m) (env : Env) (name : String) (v : Value) :
    SameAny c (defineName env name v) m := by
  cases env with
  | nil => exact same_pure hm trivial
  | cons r env => exact same_define hm r name v

theorem same_hoist (hm : Unbounded m) (env : Env) (stmts : List Stmt) :
    SameAny c (hoist env stmts) m := by
  induction stmts generalizing m with
  | nil => exact same_pure hm trivial
  | cons s rest ih =>
    cases s with
    | func f =>
      unfold hoist
      cases f.name with
      | none => exact same_pure hm trivial
      | some id => exact (same_defineName hm env id.name _).bind fun _ _ _ _ hm' => ih hm'
    | _ => exact ih hm

include hm

theorem same_readName (env : Env) (name : String) : SameAny c (readName env name) m := by
  refine same_heap_bind hm (lookup?_keep env name) ?_
  cases m.heap.lookup? env name with
  | some v => exact same_pure hm trivial
  | none =>
    cases freeName? name with
    | some v => exact same_pure hm trivial
    | none => exact same_fail _

theorem same_assignName (env : Env) (name : String) (v : Value) :
    SameAny c (assignName env name v) m := by
  refine same_heap_bind hm (frameOf?_keep env name) ?_
  cases m.heap.frameOf? env name with
  | some r => exact same_define hm r name v
  | none => exact same_fail _

theorem same_openFrame (env : Env) : SameAny c (openFrame env) m :=
  (same_newFrame hm _).bind fun _ _ _ _ hm' => same_pure hm' trivial

/-! ## Fields and elements -/

theorem member_keep (hbase : base.Within c) (property : String) :
    (m.keep c).member base property = m.member base property := by
  have hsettle : (m.keep c).heap.settle base = m.heap.settle base :=
    settle_keep hm.sound hbase
  unfold member
  rw [hsettle]
  rfl

theorem same_readMember (hbase : base.Within c) (property : String) :
    SameAny c (readMember base property) m := fun _ _ h => by
  cases h
  refine ⟨trivial, hm, ?_⟩
  exact congrArg (EStateM.Result.ok · (m.keep c)) (member_keep hm hbase property)

theorem same_readElement (hreads : ∀ i ∈ m.heap.elementReads base index, i < c) :
    SameAny c (readElement base index) m := by
  unfold readElement
  cases base with
  | series r offset =>
    have hindex : index.Within c := fun i hi => hreads i (List.mem_append_left _ hi)
    refine same_heap hm (P := fun _ => True) ?_ trivial
    rw [position?_keep hm.sound hindex]
    cases hp : m.heap.position? index with
    | none => rfl
    | some i =>
      refine seriesGet_keep (hreads _ (List.mem_append_right _ ?_))
      rw [hp]
      exact List.mem_singleton_self _
  | array r =>
    refine same_heap hm (P := fun _ => True) ?_ trivial
    rw [position?_keep hm.sound hreads]
    rfl
  | str s =>
    refine same_heap hm (P := fun _ => True) ?_ trivial
    rw [position?_keep hm.sound hreads]
  | object r =>
    have hkey : (m.heap.keep c).display? ((m.heap.keep c).current index) =
        m.heap.display? (m.heap.current index) := by
      rw [current_keep hreads]
      exact display?_keep hm.sound (current_within hm.sound index)
    refine (same_heap? hm (P := fun _ => True) hkey fun _ _ => trivial).bind
      fun key m' _ _ hm' => same_heap hm' rfl trivial
  | _ => exact same_pure hm trivial

theorem same_storeSlot (hc : 1 ≤ c) (b : Bucket) (name : String)
    (hv : ∀ i ∈ Heap.memberWriteReads (.bucket b) v, i < c) : SameAny c (storeSlot b name v) m := by
  have hset : ∀ (r : Ref) {m : Machine}, Unbounded m →
      SameAny c (Exec.modifyContext fun k => k.setSlot b name r) m :=
    fun r m hm => by
      refine same_modifyContext hm ?_ ?_
      · cases b <;> rfl
      · cases b <;> rfl
  have hnew : v.Within c → SameAny c
      (do newSeries (← Exec.heap fun h => h.current v)) m := fun hv =>
    same_heap_bind hm (current_keep hv) (same_newSeries hm hc (hm.sound.current v))
  rw [storeSlot_eq]
  have hhistory : SameAny c (slotHistory v) m := by
    cases v with
    | series r o =>
      cases o with
      | zero => exact same_pure hm trivial
      | succ o => exact hnew hv
    | _ => exact hnew hv
  exact hhistory.bind fun r _ _ _ hm' => hset r hm'

theorem same_insertField (hv : v.Within c) : SameAny c
      (Exec.modifyHeap fun h => h.modifyObject r fun d => d.insert key (h.current v)) m := by
  refine same_modifyHeap hm ?_ (hm.sound.insertField (hm.sound.current v)) hm.capacity
  rw [current_keep hv]
  rfl

theorem same_writeMember (hc : 1 ≤ c) (property : String)
    (hv : ∀ i ∈ Heap.memberWriteReads base v, i < c) :
    SameAny c (writeMember base property v) m := by
  cases base with
  | bucket b => exact same_storeSlot hm hc b property hv
  | object r => exact same_insertField hm hv
  | _ => exact same_fail _

theorem same_writeElement (hc : 1 ≤ c) (hindex : index.Within c) (hv : v.Within c) :
    SameAny c (writeElement base index v) m := by
  refine same_heap_bind hm (number_keep hm.sound hindex) ?_
  refine same_heap_bind hm (position?_keep hm.sound hindex) ?_
  have hcurrent := hm.sound.current v
  generalize m.heap.position? index = position
  cases base with
  | series r offset =>
    cases position with
    | none => exact same_fail _
    | some i =>
      show Same c _ (if showsHistory r v then _ else _) m
      split
      · exact same_throw _
      · have hset : SameAny c (Exec.modifyHeap fun h =>
            h.modifyHistory r fun s => setBar s (offset + i) (m.heap.current v)) m := by
          refine same_modifyHistory hm (fun s hs => ⟨keep_setBar hc s _ _, ?_⟩) fun s hs u hu => ?_
          · exact (capacity_setBar s _ _).trans hs
          · rcases mem_setBar hu with rfl | hu
            · exact hcurrent
            · exact hs u hu
        intro a m' h
        obtain ⟨-, hm', hkept⟩ := hset a m' h
        refine ⟨trivial, hm', Eq.trans ?_ hkept⟩
        have hcurrent' : (m.keep c).heap.current v = m.heap.current v := current_keep hv
        show EStateM.Result.ok () (Machine.mk ((m.keep c).heap.modifyHistory r fun s =>
          setBar s (offset + i) ((m.keep c).heap.current v)) (m.keep c).context) = _
        rw [hcurrent']
        rfl
  | array r =>
    cases position with
    | none => exact same_fail _
    | some i =>
      show Same c _ (if maxLength ≤ i then _ else _) m
      split
      · exact same_fail _
      · refine same_modifyHeap hm ?_ (hm.sound.modifyArray fun a ha u hu => ?_) hm.capacity
        · rw [current_keep hv]
          rfl
        · rcases mem_setElement hu with rfl | rfl | hu
          · exact hcurrent
          · exact id
          · exact ha u hu
  | object r =>
    have hkey : (m.heap.keep c).display? ((m.heap.keep c).current index) =
        m.heap.display? (m.heap.current index) := by
      rw [current_keep hindex]
      exact display?_keep hm.sound (current_within hm.sound index)
    refine (same_heap? hm (P := fun _ => True) hkey fun _ _ => trivial).bind
      fun key m' _ _ hm' => same_insertField hm' hv
  | _ => exact same_fail _

/-! ## Patterns -/

omit hm in
theorem same_forM {α : Type} {l : List α} {f : α → Exec Unit} {m : Machine} (hm : Unbounded m)
    (hf : ∀ a ∈ l, ∀ {m : Machine}, Unbounded m → SameAny c (f a) m) :
    SameAny c (l.forM f) m := by
  induction l generalizing m with
  | nil => exact same_pure hm trivial
  | cons a l ih =>
    obtain ⟨ha, hl⟩ := List.forall_mem_cons.1 hf
    exact (ha hm).bind fun _ _ _ _ hm' => ih hm' hl

omit hm in
theorem elementReads_number (h h' : Heap) (base : Value) (x : Float) :
    h.elementReads base (.number x) = h'.elementReads base (.number x) := by
  cases base <;> rfl

theorem same_bindPattern (env : Env) (target : Pattern)
    (hreads : ∀ i ∈ Traced.patternReads m.heap target v, i < c) :
    SameAny c (bindPattern env target v) m := by
  cases target with
  | ident id => exact same_defineName hm env id.name v
  | object props =>
    refine same_forM hm fun p hp m' hm' => ?_
    have hv : v.Within c := fun i hi => hreads i (List.mem_flatMap_of_mem hp hi)
    exact (same_readMember hm' hv p.1).bind fun u _ _ _ hm'' => same_defineName hm'' env p.2.name u
  | array items =>
    refine same_forM hm fun p hp m' hm' => ?_
    obtain ⟨item, i⟩ := p
    cases item with
    | none => exact same_pure hm' trivial
    | some id =>
      refine (same_readElement hm' fun k hk => hreads k ?_).bind fun u _ _ _ hm'' =>
        same_defineName hm'' env id.name u
      rw [elementReads_number _ m.heap] at hk
      exact List.mem_flatMap_of_mem hp hk

/-! ## Functions of the context -/

theorem same_init (hc : 1 ≤ c) (slot : Value)
    (hreads : ∀ i ∈ m.heap.initReads value offset, i < c) :
    SameAny c (init slot value offset) m := by
  rw [init_eq]
  have hvalue : Same c (fun v => ¬ v.IsSeries) (initValue value offset) m := by
    unfold initValue
    cases value with
    | series r o =>
      have hoffset : offset.Within c := fun i hi => hreads i (List.mem_append_left _ hi)
      refine same_heap hm ?_ (hm.sound.seriesGet _ _)
      rw [bars_keep hm.sound hoffset]
      exact seriesGet_keep (hreads _ (List.mem_append_right _ List.mem_cons_self))
    | _ => exact same_pure hm id
  refine hvalue.bind fun v m' _ hv hm' => ?_
  unfold initSlot
  cases slot with
  | series r o =>
    exact (same_setCurrent hm' hc hv).bind fun _ _ _ _ hm'' => same_pure hm'' trivial
  | _ => exact (same_newSeries hm' hc hv).bind fun _ _ _ _ hm'' => same_pure hm'' trivial

theorem same_paramHistory (hc : 1 ≤ c) (id : String) : SameAny c (paramHistory id) m := by
  refine same_context_bind rfl ?_
  cases m.context.params.get? id with
  | some r => exact same_pure hm trivial
  | none =>
    intro r m' h
    have hcapacity : Exec.context (fun k => k.config.maxHistory) m = .ok none m :=
      congrArg (EStateM.Result.ok · m) hm.config
    have h := (Exec.bind_ok hcapacity).symm.trans h
    obtain ⟨r', m₁, halloc, h⟩ := Exec.bind_eq_ok h
    have hnew := same_newHistory hm (s := .new none) (History.keep_new hc) rfl
      (fun _ hv => nomatch hv)
      r' m₁ halloc
    have hname : SameAny c (do
        Exec.modifyContext fun k => { k with params := k.params.insert id r' }
        return r') m₁ :=
      (same_modifyContext hnew.1 rfl rfl).bind fun _ _ _ _ hm₂ => same_pure hm₂ trivial
    obtain ⟨-, hm', hkept⟩ := hname r m' h
    refine ⟨trivial, hm', ?_⟩
    have hcapacity' : Exec.context (fun k => k.config.maxHistory) (m.keep c) =
        .ok (some c) (m.keep c) := rfl
    exact (Exec.bind_ok hcapacity').trans ((Exec.bind_ok hnew.2).trans hkept)

theorem same_param (hc : 1 ≤ c) (hoffset : offset.Within c) (id : String) :
    SameAny c (param value offset id) m := by
  refine same_heap_bind hm (bars_keep hm.sound hoffset) ?_
  have hhistory : ¬ value.IsSeries → SameAny c
      (do let r ← paramHistory id
          Exec.modifyHeap fun h => h.modifyHistory r fun s => s.setCurrent value
          return Value.series r (m.heap.bars offset)) m := fun hvalue => by
    refine (same_paramHistory hm hc id).bind fun r m₁ _ _ hm₁ => ?_
    exact (same_setCurrent hm₁ hc hvalue).bind fun _ _ _ _ hm₂ => same_pure hm₂ trivial
  cases value with
  | series r o => exact same_pure hm trivial
  | func f ρ => exact same_pure hm trivial
  | native ns name => exact same_pure hm trivial
  | _ => exact hhistory fun h => h

/-! ## Rounding -/

mutual

def Machine.Rounded.Plain : Rounded → Prop
  | .value v => ¬ v.IsSeries
  | .array items => Rounded.ListPlain items

def Machine.Rounded.ListPlain : List Rounded → Prop
  | [] => True
  | t :: rest => t.Plain ∧ Rounded.ListPlain rest

end

omit hm in
theorem listPlain_of_mapM {f : Value → Option Rounded} {l : List Value} {ts : List Rounded}
    (hf : ∀ v ∈ l, ∀ t, f v = some t → t.Plain) (h : l.mapM f = some ts) :
    Rounded.ListPlain ts := by
  induction l generalizing ts with
  | nil =>
    cases h
    trivial
  | cons v l ih =>
    rw [List.mapM_cons] at h
    obtain ⟨hv, hl⟩ := List.forall_mem_cons.1 hf
    obtain ⟨t, ht, h⟩ := Option.bind_eq_some_iff.1 h
    obtain ⟨rest, hrest, h⟩ := Option.bind_eq_some_iff.1 h
    cases h
    exact ⟨hv t ht, ih hl hrest⟩

theorem rounded?_plain (scale : Float) (n : Nat) {v : Value} (hv : ¬ v.IsSeries) {t : Rounded}
    (h : rounded? m.heap scale n v = some t) : t.Plain := by
  induction n generalizing v t with
  | zero => cases h
  | succ n ih =>
    cases v with
    | number x =>
      cases h
      exact fun h => h
    | array r =>
      obtain ⟨ts, hts, rfl⟩ := Option.map_eq_some_iff.1 h
      exact listPlain_of_mapM (fun w _ t ht => ih (hm.sound.current w) ht) hts
    | _ =>
      cases h
      exact hv

omit hm in
mutual

theorem same_make (t : Rounded) (ht : t.Plain) {m : Machine} (hm : Unbounded m) :
    Same c (fun v => ¬ v.IsSeries) t.make m := by
  match t with
  | .value v => exact same_pure hm ht
  | .array items =>
    refine (same_makeList items ht hm).bind fun vs m' _ hvs hm' => ?_
    exact same_newArray hm' hvs

theorem same_makeList (ts : List Rounded) (ht : Rounded.ListPlain ts) {m : Machine}
    (hm : Unbounded m) :
    Same c (fun vs => ∀ v ∈ vs, ¬ v.IsSeries) (Rounded.makeList ts) m := by
  match ts with
  | [] => exact same_pure hm fun _ hv => nomatch hv
  | t :: rest =>
    refine (same_make t ht.1 hm).bind fun v m₁ _ hv hm₁ => ?_
    refine (same_makeList rest ht.2 hm₁).bind fun vs m₂ _ hvs hm₂ => ?_
    exact same_pure hm₂ (List.forall_mem_cons.2 ⟨hv, hvs⟩)

end

theorem same_precision {v : Value} (hv : v.Within c) : SameAny c (precision v) m := by
  refine same_context_bind rfl ?_
  have hrounded : rounded? (m.heap.keep c) m.context.config.scale (m.heap.keep c).depthBound
      ((m.heap.keep c).current v) =
      rounded? m.heap m.context.config.scale m.heap.depthBound (m.heap.current v) := by
    rw [depthBound_keep, current_keep hv]
    exact rounded?_keep hm.sound _ _ (current_within hm.sound v)
  refine (same_heap? hm hrounded fun t ht =>
    rounded?_plain hm _ _ (hm.sound.current v) ht).bind fun t m' _ ht hm' => ?_
  exact (same_make t ht hm').weaken fun _ _ => trivial

end BarScript

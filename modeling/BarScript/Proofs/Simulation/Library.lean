import BarScript.Proofs.Simulation.Readings

/-!
# Namespace functions on corresponding machines

The functions of the namespaces read their arguments as numbers, windows, flags
and arrays, and none of these readings depends on where a value lies on the
heap. So a call with corresponding arguments gives corresponding results.
-/

namespace BarScript

open Correspondence Library Array Exec

namespace Operations

variable {W : Type} (S : Operations W) {w : W} {m n : Machine} {args args' : List Value}

/-! ## Arguments -/

theorem arg_val (hargs : S.Vals w args args') (i : Nat) : S.val w (arg args i) (arg args' i) := by
  unfold arg
  rw [List.getD_eq_getElem?_getD, List.getD_eq_getElem?_getD]
  have h := forall₂_getElem? hargs i
  generalize args[i]? = o, args'[i]? = o' at h ⊢
  cases h with
  | some hv => exact hv
  | none => exact S.free trivial

theorem num_eq (hmn : S.rel w m n) (hargs : S.Vals w args args') (i : Nat) :
    num m.heap args i = num n.heap args' i := by
  unfold num
  have h := forall₂_getElem? hargs i
  generalize args[i]? = o, args'[i]? = o' at h ⊢
  cases h with
  | some hv => exact S.number_eq hmn hv
  | none => rfl

theorem numbers_eq (hmn : S.rel w m n) (hargs : S.Vals w args args') :
    args.map m.heap.number = args'.map n.heap.number := by
  induction hargs with
  | nil => rfl
  | cons hv _ ih => rw [List.map_cons, List.map_cons, S.number_eq hmn hv, ih]

theorem currents_items (hmn : S.rel w m n) (hargs : S.Vals w args args') :
    S.Items w (args.map m.heap.current) (args'.map n.heap.current) := by
  induction hargs with
  | nil => exact .nil
  | cons hv _ ih => exact .cons (S.current_held hmn hv) ih

theorem length_eq (hmn : S.rel w m n) (hargs : S.Vals w args args') (function : String) (i : Nat)
    (default : Option Nat) : length function m.heap args i default =
      length function n.heap args' i default := by
  unfold length
  rw [S.num_eq hmn hargs i]

theorem seriesWindow?_eq (hmn : S.rel w m n) (hs : S.val w (.series r o) (.series r' o)) (len : Nat)
    :
    m.heap.window? r o len = n.heap.window? r' o len := by
  have hvals : S.Vals w ((m.heap.seriesValues r o).take len)
      ((n.heap.seriesValues r' o).take len) :=
    List.forall₂_take len (Items.vals (S.seriesValues hmn hs))
  unfold Heap.window?
  rw [S.seriesLength_eq hmn hs, S.numbers_eq hmn hvals]

theorem window?_eq (hmn : S.rel w m n) (hargs : S.Vals w args args') (i len : Nat) :
    window? m.heap args i len = window? n.heap args' i len := by
  unfold window?
  have h := forall₂_getElem? hargs i
  generalize args[i]? = o, args'[i]? = o' at h ⊢
  cases h with
  | none => rfl
  | some hv =>
    have hnum := S.number_eq hmn hv
    cases S.alike hv with
    | series r r' o => exact S.seriesWindow?_eq hmn hv len
    | _ => simp only [hnum]

theorem overWindow_val (hmn : S.rel w m n) (hargs : S.Vals w args args') (i len : Nat)
    (f : List Float → Float) :
    S.val w (overWindow m.heap args i len f) (overWindow n.heap args' i len f) := by
  unfold overWindow
  rw [S.window?_eq hmn hargs i len]
  exact S.free trivial

theorem flag_eq (hmn : S.rel w m n) (hargs : S.Vals w args args') (i : Nat) (default : Bool) :
    flag m.heap args i default = flag n.heap args' i default := by
  unfold flag
  have h := forall₂_getElem? hargs i
  generalize args[i]? = o, args'[i]? = o' at h ⊢
  cases h with
  | none => rfl
  | @some v v' hv =>
    have hcur := (S.current_held hmn hv).1
    have htruthy := S.truthy_eq hmn hcur
    dsimp only
    generalize m.heap.current v = a, n.heap.current v' = b at hcur htruthy ⊢
    cases S.alike hcur with
    | na => rfl
    | _ => exact htruthy

theorem crossing_eq (hmn : S.rel w m n) (hargs : S.Vals w args args')
    (crossed : List Float → List Float → Bool) :
    crossing m.heap args crossed = crossing n.heap args' crossed := by
  unfold crossing
  rw [S.window?_eq hmn hargs, S.window?_eq hmn hargs]

/-- The key at the end of the arguments is the same, and so are the arguments
before it. -/
theorem splitKey_val (hargs : S.Vals w args args') : S.Vals w (splitKey args).1 (splitKey args').1 ∧
      (splitKey args).2 = (splitKey args').2 := by
  have hlast : Option.Rel (S.val w) args.getLast? args'.getLast? := by
    rw [List.getLast?_eq_getElem?, List.getLast?_eq_getElem?, hargs.length_eq]
    exact forall₂_getElem? hargs _
  have hinit : S.Vals w args.dropLast args'.dropLast := by
    rw [List.dropLast_eq_take, List.dropLast_eq_take, hargs.length_eq]
    exact List.forall₂_take _ hargs
  unfold splitKey
  generalize args.getLast? = o, args'.getLast? = o' at hlast ⊢
  cases hlast with
  | none => exact ⟨hargs, rfl⟩
  | some hv =>
    cases S.alike hv with
    | str s => exact ⟨hinit, rfl⟩
    | _ => exact ⟨hargs, rfl⟩

theorem lengthArg_agree (hargs : S.Vals w args args') (function : String) (i : Nat)
    (default : Option Nat) : S.Agree w same (lengthArg function args i default)
      (lengthArg function args' i default) := by
  refine (agree_heap_eq fun m n hmn => S.length_eq hmn hargs function i default).bind_same
    fun w' _ a => ?_
  cases a with
  | ok k => exact agree_pure rfl
  | error e => exact agree_fail e

theorem num_agree (hargs : S.Vals w args args') (i : Nat) :
    S.Agree w same (heap fun h => num h args i) (heap fun h => num h args' i) :=
  agree_heap_eq fun _ _ hmn => S.num_eq hmn hargs i

theorem newArray_agree (h : S.Items w l l') : S.Agree w S.val (alloc fun h => h.newArray l.toArray)
      (alloc fun h => h.newArray l'.toArray) :=
  (S.newArray h).weaken fun _ _ _ _ hv => hv.1

/-! ## Stateful functions -/

theorem readingValue_agree (reading : Reading) :
    S.Steady w S.val (readingValue reading) := by
  cases reading with
  | number x => exact agree_pure (S.free trivial)
  | point p =>
    have hnum : ∀ x, S.Held w (.number x) (.number x) := fun _ => ⟨S.free trivial, id⟩
    exact S.newArray_agree (.cons (hnum _) (.cons (hnum _) (.cons (hnum _) .nil)))

theorem stateful_agree (function : String) (key : Option String) (x : Float)
    (init : Except KernelError StateKernel) : S.Steady w S.val (stateful function key x init) := by
  cases key with
  | none => exact agree_fail _
  | some id =>
    have hread : S.Steady w same
        (context fun c => c.kernels.update id c.steps init fun k => k.next x) :=
      agree_context_eq fun m n hmn => by rw [S.kernels hmn, S.steps hmn]
    refine hread.bind_same fun w' _ a => ?_
    cases a with
    | error e => exact agree_fail _
    | ok p =>
      exact (S.setKernels p.2).bind fun _ _ _ _ _ => S.readingValue_agree p.1

/-- **Calls into `ta`.** -/
theorem ta_agree (hargs : S.Vals w args args') (name : String) :
    S.Agree w S.val (ta name args) (ta name args') := by
  obtain ⟨hvals, hkey⟩ := S.splitKey_val hargs
  unfold ta
  revert hvals hkey
  generalize splitKey args = p
  generalize splitKey args' = p'
  obtain ⟨args, key⟩ := p
  obtain ⟨args', key'⟩ := p'
  rintro hvals ⟨⟩
  have hfeed : ∀ {w'}, S.le w w' → ∀ function init, S.Agree w' S.val
        (heap (fun h => num h args 0) >>= fun x => stateful function key x init)
        (heap (fun h => num h args' 0) >>=
          fun x => stateful function key x init) := fun hw function init =>
    (S.num_agree (hvals.mono hw) 0).bind fun _ _ _ _ hx =>
      hx ▸ S.stateful_agree function key _ init
  have hstat : ∀ {w'}, S.le w w' → ∀ len f,
      S.Agree w' S.val (heap fun h => overWindow h args 0 len f)
        (heap fun h => overWindow h args' 0 len f) := fun hw len f =>
    agree_heap fun _ _ hmn => S.overWindow_val hmn (hvals.mono hw) 0 len f
  dsimp only
  split
  · refine (S.lengthArg_agree hvals _ 1 _).bind fun w₁ hw₁ fast _ hfast => ?_
    refine (S.lengthArg_agree (hvals.mono hw₁) _ 2 _).bind fun w₂ hw₂ slow _ hslow => ?_
    have hw₂ := S.trans hw₁ hw₂
    refine (S.lengthArg_agree (hvals.mono hw₂) _ 3 _).bind fun w₃ hw₃ signal _ hsignal => ?_
    subst hfast hslow hsignal
    exact hfeed (S.trans hw₂ hw₃) _ _
  · exact hfeed (S.refl w) _ _
  · refine (S.lengthArg_agree hvals _ 1 _).bind_same fun w' hw len => ?_
    exact hstat hw _ _
  · refine agree_heap fun m n hmn => ?_
    rw [S.crossing_eq hmn hvals]
    exact S.free trivial
  · refine agree_heap fun m n hmn => ?_
    rw [S.crossing_eq hmn hvals]
    exact S.free trivial
  · split
    · refine (S.lengthArg_agree hvals _ 1 _).bind_same fun w' hw len => ?_
      exact hfeed hw _ _
    · refine (S.lengthArg_agree hvals _ 1 _).bind_same fun w' hw len => ?_
      exact hstat hw _ _
    · exact agree_fail _

/-! ## Mathematics -/

theorem number_agree {f g : Heap → Float} (h : ∀ m n, S.rel w m n → f m.heap = g n.heap) :
    S.Agree w S.val (heap fun h => .number (f h)) (heap fun h => .number (g h)) :=
  agree_heap fun m n hmn => by
    rw [h m n hmn]
    exact S.free trivial

theorem bool_agree {f g : Heap → Bool} (h : ∀ m n, S.rel w m n → f m.heap = g n.heap) :
    S.Agree w S.val (heap fun h => .bool (f h)) (heap fun h => .bool (g h)) :=
  agree_heap fun m n hmn => by
    rw [h m n hmn]
    exact S.free trivial

/-- **Calls into `math`.** -/
theorem math_agree (hargs : S.Vals w args args') (name : String) :
    S.Agree w S.val (math name args) (math name args') := by
  unfold math
  split
  · exact S.bool_agree fun _ _ hmn => S.tolerantEq_eq hmn (S.arg_val hargs 0) (S.arg_val hargs 1)
  · exact S.number_agree fun _ _ hmn => by rw [S.num_eq hmn hargs, S.num_eq hmn hargs]
  · exact S.number_agree fun _ _ hmn => by rw [S.num_eq hmn hargs, S.num_eq hmn hargs]
  · exact S.number_agree fun _ _ hmn => by
      rw [nums, nums, S.numbers_eq hmn hargs]
  · exact S.number_agree fun _ _ hmn => by
      rw [nums, nums, S.numbers_eq hmn hargs]
  · exact S.number_agree fun _ _ hmn => by
      rw [nums, nums, S.numbers_eq hmn hargs]
  · refine (S.lengthArg_agree hargs _ 1 _).bind_same fun w' hw len => ?_
    exact agree_heap fun _ _ hmn => S.overWindow_val hmn (hargs.mono hw) 0 len _
  · split
    · exact S.number_agree fun _ _ hmn => by rw [S.num_eq hmn hargs]
    · exact agree_fail _

/-! ## Arrays -/

theorem arrayArg_agree (hargs : S.Vals w args args') (function : String) :
    S.Agree w (fun w r r' => S.val w (.array r) (.array r')) (arrayArg function args)
      (arrayArg function args') := by
  refine (agree_heap (Q := S.val) fun m n hmn => (S.current_held hmn (S.arg_val hargs 0)).1).bind
    fun w' _ a b hab => ?_
  cases S.alike hab with
  | array r r' => exact agree_pure hab
  | _ => exact agree_fail _

theorem elementIndex_agree (hargs : S.Vals w args args') (function : String) (i size : Nat) :
    S.Agree w same (elementIndex function args i size) (elementIndex function args' i size) := by
  refine (S.num_agree hargs i).bind_same fun w' _ x => ?_
  split
  · exact agree_fail _
  · exact agree_pure rfl

section Method

variable {r r' : Ref} (hr : S.val w (.array r) (.array r'))

include hr

theorem arraySize_eq (hmn : S.rel w m n) : (m.heap.array r).size = (n.heap.array r').size := by
  rw [← length_toList, ← length_toList]
  exact (S.arrayItems hmn hr).length_eq

theorem arraySize_agree :
    S.Agree w same (heap fun h => (h.array r).size) (heap fun h => (h.array r').size) :=
  agree_heap_eq fun _ _ hmn => S.arraySize_eq hr hmn

theorem arrayGet_held (hmn : S.rel w m n) (i : Nat) :
    S.Held w ((m.heap.array r).getD i .na) ((n.heap.array r').getD i .na) := by
  rw [getD_eq_getD_getElem?, getD_eq_getD_getElem?, ← getElem?_toList, ← getElem?_toList]
  exact S.held_getD (forall₂_getElem? (S.arrayItems hmn hr) i)

theorem arrayBack_held (hmn : S.rel w m n) :
    S.Held w ((m.heap.array r).back?.getD .na) ((n.heap.array r').back?.getD .na) := by
  rw [Array.back?, Array.back?, S.arraySize_eq hr hmn, ← getD_eq_getD_getElem?,
    ← getD_eq_getD_getElem?]
  exact S.arrayGet_held hr hmn _

theorem overArray_agree (f : List Float → Float) :
    S.Agree w S.val (overArray r f) (overArray r' f) :=
  S.number_agree fun m n hmn => by
    rw [nums, nums, S.numbers_eq hmn (Items.vals (S.arrayItems hmn hr))]

theorem changeArray_agree {f f' : Array Value → Array Value}
    (hf : ∀ w', S.le w w' → ∀ a a' : Array Value, S.Items w' a.toList a'.toList →
      S.Items w' (f a).toList (f' a').toList) :
    S.Agree w S.val (do modifyHeap fun h => h.modifyArray r f; return .na)
      (do modifyHeap fun h => h.modifyArray r' f'; return .na) :=
  (S.modifyArray hr hf).bind fun _ _ _ _ _ => agree_pure (S.free trivial)

/-- **Functions of an array.** -/
theorem arrayMethod_agree (hargs : S.Vals w args args') (function name : String) :
    S.Agree w S.val (arrayMethod function name r args) (arrayMethod function name r' args') := by
  unfold arrayMethod
  split
  · refine (S.arraySize_agree hr).bind_same fun w₁ hw₁ size => ?_
    refine (S.elementIndex_agree (hargs.mono hw₁) _ 1 size).bind_same fun w₂ hw₂ i => ?_
    exact agree_heap fun _ _ hmn => (S.arrayGet_held (S.val_mono (S.trans hw₁ hw₂) hr) hmn i).1
  · refine (S.arraySize_agree hr).bind_same fun w₁ hw₁ size => ?_
    refine (S.elementIndex_agree (hargs.mono hw₁) _ 1 size).bind_same fun w₂ hw₂ i => ?_
    have hw₂ := S.trans hw₁ hw₂
    refine (S.current_agree (S.arg_val (hargs.mono hw₂) 2)).bind fun w₃ hw₃ v v' hv => ?_
    refine S.changeArray_agree (S.val_mono (S.trans hw₂ hw₃) hr) fun w₄ hw₄ a a' ha => ?_
    rw [toList_setIfInBounds, toList_setIfInBounds]
    exact forall₂_set ha i (hv.mono hw₄)
  · refine (S.current_agree (S.arg_val hargs 1)).bind fun w₁ hw₁ v v' hv => ?_
    refine S.changeArray_agree (S.val_mono hw₁ hr) fun w₂ hw₂ a a' ha => ?_
    rw [toList_push, toList_push]
    exact List.rel_append ha (.cons (hv.mono hw₂) .nil)
  · refine (agree_heap (Q := S.val) fun _ _ hmn => (S.arrayBack_held hr hmn).1).bind
      fun w₁ hw₁ v v' hv => ?_
    refine (S.modifyArray (S.val_mono hw₁ hr) fun w₂ _ a a' ha => ?_).bind
      fun w₂ hw₂ _ _ _ => agree_pure (S.val_mono hw₂ hv)
    rw [toList_pop, toList_pop, List.dropLast_eq_take, List.dropLast_eq_take, ha.length_eq]
    exact List.forall₂_take _ ha
  · exact S.changeArray_agree hr fun _ _ _ _ _ => .nil
  · exact S.number_agree fun _ _ hmn => by rw [S.arraySize_eq hr hmn]
  · exact S.overArray_agree hr _
  · exact S.overArray_agree hr _
  · exact S.overArray_agree hr _
  · exact S.overArray_agree hr _
  · refine (agree_heap_eq fun _ _ hmn => S.flag_eq hmn hargs 1 true).bind_same
      fun w₁ hw₁ biased => ?_
    exact S.overArray_agree (S.val_mono hw₁ hr) _
  · refine (agree_heap_eq fun _ _ hmn => S.flag_eq hmn hargs 1 true).bind_same
      fun w₁ hw₁ biased => ?_
    exact S.overArray_agree (S.val_mono hw₁ hr) _
  · exact agree_fail _

end Method

/-- **Calls into `array`.** -/
theorem array_agree (hargs : S.Vals w args args') (name : String) :
    S.Agree w S.val (array name args) (array name args') := by
  unfold array
  split
  · refine (S.lengthArg_agree hargs _ 0 _).bind_same fun w₁ hw₁ size => ?_
    refine (S.num_agree (hargs.mono hw₁) 1).bind_same fun w₂ hw₂ x => ?_
    have hitems : S.Items w₂ (List.replicate size (.number x)) (List.replicate size (.number x)) :=
      List.forall₂_same.2 fun v hv => by
        rw [List.eq_of_mem_replicate hv]
        exact ⟨S.free trivial, id⟩
    have h := S.newArray_agree hitems
    rwa [List.toArray_replicate] at h
  · refine (agree_heap (Q := S.Items) fun _ _ hmn => S.currents_items hmn hargs).bind
      fun w₁ _ l l' hl => S.newArray_agree hl
  · refine (S.arrayArg_agree hargs _).bind fun w₁ hw₁ r r' hr => ?_
    exact S.arrayMethod_agree hr (hargs.mono hw₁) _ name

/-! ## The rest -/

theorem nz_val (hmn : S.rel w m n) (hargs : S.Vals w args args') :
    S.val w (nz m.heap args) (nz n.heap args') := by
  have hcur := (S.current_held hmn (S.arg_val hargs 0)).1
  unfold nz
  dsimp only
  rw [S.isNa_eq hmn hcur]
  split
  · have h := forall₂_getElem? hargs 1
    generalize args[1]? = o, args'[1]? = o' at h ⊢
    cases h with
    | some hv => exact (S.current_held hmn hv).1
    | none => exact S.free trivial
  · exact hcur

/-- **Calls into `core`.** -/
theorem core_agree (hargs : S.Vals w args args') (name : String) :
    S.Agree w S.val (core name args) (core name args') := by
  unfold core
  split
  · exact S.bool_agree fun _ _ hmn => S.isNa_eq hmn (S.arg_val hargs 0)
  · exact agree_heap fun _ _ hmn => S.nz_val hmn hargs
  · exact agree_fail _

/-- **Namespace functions** called with corresponding arguments correspond. -/
theorem library_agree (hargs : S.Vals w args args') (ns : Namespace) (name : String) :
    S.Agree w S.val (call ns name args) (call ns name args') := by
  cases ns with
  | ta => exact S.ta_agree hargs name
  | math => exact S.math_agree hargs name
  | array => exact S.array_agree hargs name
  | core => exact S.core_agree hargs name
  | data => exact agree_fail _

end Operations

end BarScript

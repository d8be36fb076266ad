import BarScript.Proofs.Retention.Steps

/-!
# Namespace functions on histories that forget

A namespace function looks at the current values of its arguments and at windows of
them. If all of these are kept, it gives what it gives where nothing is forgotten.
-/

namespace BarScript

open Machine List

namespace Library

variable {c : Nat} {m : Machine} (hm : Unbounded m) {args : List Value}

include hm

variable {α : Type} {P : α → Prop} {function : String} {i : Nat} {default : Option Nat}
  {f : List Float → Float}

theorem same_lengthArg_bind {g : Nat → Exec α} (hi : ∀ k ∈ argReads args i, k < c)
    (hg : ∀ len, length function m.heap args i default = .ok len → Same c P (g len) m) :
    Same c P (lengthArg function args i default >>= g) m := by
  unfold lengthArg
  rw [bind_assoc]
  refine same_heap_bind hm (length_keep hm.sound hi) ?_
  cases hlen : length function m.heap args i default with
  | ok len => exact hg len hlen
  | error e => exact fun _ _ h => nomatch h

theorem same_readingValue (r : Reading) : SameAny c (readingValue r) m := by
  cases r with
  | number x => exact same_pure hm trivial
  | point p =>
    refine (same_newArray hm fun v hv => ?_).weaken fun _ _ => trivial
    simp only [mem_cons, not_mem_nil, or_false] at hv
    rcases hv with rfl | rfl | rfl <;> exact id

theorem same_stateful (function : String) (key : Option String) (x : Float)
    (start : Except KernelError StateKernel) : SameAny c (stateful function key x start) m := by
  cases key with
  | none => exact same_fail _
  | some id =>
    refine same_context_bind rfl ?_
    cases m.context.kernels.update id m.context.steps start fun k => k.next x with
    | error e => exact same_fail _
    | ok p =>
      obtain ⟨r, kernels⟩ := p
      exact (same_modifyContext hm rfl rfl).bind fun _ _ _ _ hm' => same_readingValue hm' r

/-- A statistic of a window whose length is an argument. -/
theorem same_statistic (extra : Nat)
    (hreads : ∀ k ∈ statisticReads function m.heap args default extra, k < c) :
    SameAny c (do
      let len ← lengthArg function args 1 default
      Exec.heap fun h => overWindow h args 0 (len + extra) f) m := by
  refine same_lengthArg_bind hm (fun k hk => hreads k (mem_append_left _ hk)) fun len hlen => ?_
  refine same_heap hm (P := fun _ => True) (overWindow_keep hm.sound fun k hk => hreads k ?_)
    trivial
  refine mem_append_right _ ?_
  rw [hlen]
  exact hk

theorem same_num_bind {g : Float → Exec α} (hi : ∀ k ∈ argReads args i, k < c)
    (hg : Same c P (g (num m.heap args i)) m) :
    Same c P ((Exec.heap fun h => num h args i) >>= g) m :=
  same_heap_bind hm (num_keep hm.sound hi) hg

theorem same_ta (name : String) (hreads : ∀ k ∈ taReads name m.heap args, k < c) :
    SameAny c (ta name args) m := by
  unfold ta
  unfold taReads at hreads
  generalize splitKey args = split at hreads ⊢
  obtain ⟨args, key⟩ := split
  split at hreads
  · simp only [mem_append, or_imp, forall_and] at hreads
    obtain ⟨⟨⟨h₀, h₁⟩, h₂⟩, h₃⟩ := hreads
    refine same_lengthArg_bind hm h₁ fun fast _ => ?_
    refine same_lengthArg_bind hm h₂ fun slow _ => ?_
    refine same_lengthArg_bind hm h₃ fun signal _ => ?_
    exact same_num_bind hm h₀ (same_stateful hm _ _ _ _)
  · exact same_num_bind hm hreads (same_stateful hm _ _ _ _)
  · exact same_statistic hm 1 hreads
  · simp only [mem_append, or_imp, forall_and] at hreads
    exact same_heap hm (congrArg Value.bool (crossing_keep hm.sound hreads.1 hreads.2)) trivial
  · simp only [mem_append, or_imp, forall_and] at hreads
    exact same_heap hm (congrArg Value.bool (crossing_keep hm.sound hreads.1 hreads.2)) trivial
  · simp -failIfUnchanged only
    cases hstate : stateful? name with
    | some kernel =>
      rw [hstate] at hreads
      simp only [Option.isSome_some, if_true, mem_append, or_imp, forall_and] at hreads
      refine same_lengthArg_bind hm hreads.2 fun len _ => ?_
      exact same_num_bind hm hreads.1 (same_stateful hm _ _ _ _)
    | none =>
      rw [hstate] at hreads
      cases statistic? name with
      | none => exact same_fail _
      | some f => exact same_statistic hm 0 hreads

theorem same_num₂ {f : Float → Float → Value}
    (hreads : ∀ k ∈ argReads args 0 ++ argReads args 1, k < c) :
    SameAny c (Exec.heap fun h => f (num h args 0) (num h args 1)) m := by
  refine same_heap hm ?_ trivial
  rw [num_keep hm.sound fun k hk => hreads k (mem_append_left _ hk),
    num_keep hm.sound fun k hk => hreads k (mem_append_right _ hk)]

theorem same_nums (hreads : ∀ k ∈ allReads args, k < c) :
    SameAny c (Exec.heap fun h => Value.number (f (nums h args))) m := by
  refine same_heap hm ?_ trivial
  rw [nums_keep hm.sound hreads]

theorem same_math (name : String) (hreads : ∀ k ∈ mathReads name m.heap args, k < c) :
    SameAny c (math name args) m := by
  unfold math
  unfold mathReads at hreads
  split at hreads
  · exact same_statistic hm 0 hreads
  · refine same_heap hm (congrArg Value.bool ?_) trivial
    exact Heap.tolerantEq_keep hm.sound (arg_within fun k hk => hreads k (mem_append_left _ hk))
      (arg_within fun k hk => hreads k (mem_append_right _ hk))
  · exact same_num₂ hm (f := fun x y => .number (roundTo x y)) hreads
  · exact same_num₂ hm (f := fun x y => .number (Float.pow x y)) hreads
  · exact same_nums hm (f := combine Number.maxNum) hreads
  · exact same_nums hm (f := combine Number.minNum) hreads
  · exact same_nums hm (f := Window.mean) hreads
  · simp only
    cases elementary? name with
    | none => exact same_fail _
    | some f =>
      refine same_heap hm ?_ trivial
      rw [num_keep hm.sound hreads]

/-! ## Arrays -/

theorem same_elementIndex (hi : ∀ k ∈ argReads args i, k < c) :
    SameAny c (elementIndex function args i size) m := by
  refine same_num_bind hm hi ?_
  split
  · exact same_fail _
  · exact same_pure hm trivial

theorem same_overArray (r : Ref) (f : List Float → Float) : SameAny c (overArray r f) m := by
  refine same_heap hm (congrArg (fun xs => Value.number (f xs)) ?_) trivial
  refine map_congr_left fun v hv => Heap.number_keep hm.sound ?_
  exact Value.within_of_not_isSeries (hm.sound.array r v hv)

theorem same_arrayMethod (function name : String) (r : Ref)
    (hreads : ∀ k ∈ arrayReads name args, k < c) :
    SameAny c (arrayMethod function name r args) m := by
  have harg : ∀ {i : Nat}, (∀ k ∈ argReads args i, k < c) →
      (m.heap.keep c).current (arg args i) = m.heap.current (arg args i) :=
    fun hi => Heap.current_keep (arg_within hi)
  unfold arrayMethod
  split
  · refine same_heap_bind hm rfl ?_
    refine (same_elementIndex hm fun k hk => hreads k (mem_append_right _ hk)).bind
      fun i _ _ _ hm' => same_heap hm' rfl trivial
  · have h₁ : ∀ k ∈ argReads args 1, k < c := fun k hk =>
      hreads k (mem_append_left _ (mem_append_right _ hk))
    have h₂ : ∀ k ∈ argReads args 2, k < c := fun k hk => hreads k (mem_append_right _ hk)
    refine same_heap_bind hm rfl ?_
    refine (same_elementIndex hm h₁).bind fun i _ _ _ hm' => ?_
    refine same_heap_bind hm' (Heap.current_keep (arg_within h₂)) ?_
    refine (same_modifyArray hm' fun a ha v hv => ?_).bind fun _ _ _ _ hm'' =>
      same_pure hm'' trivial
    rw [Array.toList_setIfInBounds] at hv
    rcases mem_or_eq_of_mem_set hv with hv | rfl
    · exact ha v hv
    · exact hm'.sound.current _
  · refine same_heap_bind hm (harg fun k hk => hreads k (mem_append_right _ hk)) ?_
    refine (same_modifyArray hm fun a ha v hv => ?_).bind fun _ _ _ _ hm' => same_pure hm' trivial
    rw [Array.toList_push, mem_append, mem_singleton] at hv
    rcases hv with hv | rfl
    · exact ha v hv
    · exact hm.sound.current _
  · refine same_heap_bind hm rfl ?_
    refine (same_modifyArray hm fun a ha v hv => ?_).bind fun _ _ _ _ hm' => same_pure hm' trivial
    rw [Array.toList_pop] at hv
    exact ha v (mem_of_mem_dropLast hv)
  · exact (same_modifyArray hm fun _ _ _ hv => absurd hv not_mem_nil).bind fun _ _ _ _ hm' =>
      same_pure hm' trivial
  · exact same_heap hm rfl trivial
  · exact same_overArray hm r _
  · exact same_overArray hm r _
  · exact same_overArray hm r _
  · exact same_overArray hm r _
  · refine same_heap_bind hm (flag_keep hm.sound fun k hk =>
      hreads k (mem_append_right _ hk)) ?_
    exact same_overArray hm r _
  · refine same_heap_bind hm (flag_keep hm.sound fun k hk =>
      hreads k (mem_append_right _ hk)) ?_
    exact same_overArray hm r _
  · exact same_fail _

omit hm in
/-- Every function of an array looks at its first argument. -/
theorem argReads_zero_of_arrayReads (hname : name ≠ "from")
    (hreads : ∀ k ∈ arrayReads name args, k < c) : ∀ k ∈ argReads args 0, k < c := by
  intro k hk
  refine hreads k ?_
  unfold arrayReads
  split
  · exact absurd rfl hname
  · exact mem_append_left _ (mem_append_left _ hk)
  all_goals first | exact mem_append_left _ hk | exact hk

theorem same_array (name : String) (hreads : ∀ k ∈ arrayReads name args, k < c) :
    SameAny c (array name args) m := by
  unfold array
  split
  · have h₀ : ∀ k ∈ argReads args 0, k < c := fun k hk => hreads k (mem_append_left _ hk)
    have h₁ : ∀ k ∈ argReads args 1, k < c := fun k hk => hreads k (mem_append_right _ hk)
    refine same_lengthArg_bind hm h₀ fun size _ => same_num_bind hm h₁ ?_
    refine (same_newArray hm fun v hv => ?_).weaken fun _ _ => trivial
    rw [Array.toList_replicate] at hv
    rw [eq_of_mem_replicate hv]
    exact id
  · refine same_heap_bind hm (currents_keep hreads) ?_
    refine (same_newArray hm fun v hv => ?_).weaken fun _ _ => trivial
    obtain ⟨u, -, rfl⟩ := mem_map.1 (show v ∈ args.map m.heap.current from hv)
    exact hm.sound.current u
  · rename_i hnew hfrom
    have h₀ := argReads_zero_of_arrayReads hfrom hreads
    have harray : SameAny c (arrayArg ("array." ++ name) args) m := by
      refine same_heap_bind hm (Heap.current_keep (arg_within h₀)) ?_
      cases m.heap.current (arg args 0) with
      | array r => exact same_pure hm trivial
      | _ => exact same_fail _
    exact harray.bind fun r _ _ _ hm' => same_arrayMethod hm' _ name r hreads

theorem same_core (name : String) (hreads : ∀ k ∈ coreReads name m.heap args, k < c) :
    SameAny c (core name args) m := by
  unfold core
  split
  · refine same_heap hm (congrArg Value.bool ?_) trivial
    exact Heap.isNa_keep hm.sound (arg_within fun k hk =>
      hreads k (mem_append_left _ hk))
  · exact same_heap hm (nz_keep hm.sound hreads) trivial
  · exact same_fail _

/-- **Namespace functions** that look at what is kept give the same. -/
theorem same_call (ns : Namespace) (name : String)
    (hreads : ∀ k ∈ reads ns name m.heap args, k < c) : SameAny c (call ns name args) m := by
  cases ns with
  | ta => exact same_ta hm name hreads
  | math => exact same_math hm name hreads
  | array => exact same_array hm name hreads
  | core => exact same_core hm name hreads
  | data => exact same_fail _

end Library

end BarScript

import BarScript.Proofs.Stability.Bars
import BarScript.Proofs.Trace.Basic

/-!
# What histories that forget still show

A heap whose histories keep a number of values each shows less than one whose histories
keep all of them. But a reading that does not look further back than that sees no
difference. Here this is said of every reading, in terms of the places that it looks
at; arrays and objects hold no series, so there is nothing to ask of what is inside of
them.
-/

namespace BarScript

open List

variable {c : Nat}

/-! ## Histories -/

namespace History

variable {α : Type} (s : History α)

/-- A history that keeps a number of values. -/
def keep (c : Nat) (s : History α) : History α :=
  ⟨s.values.take c, some c⟩

theorem keep_setCurrent (hc : 1 ≤ c) (v : α) :
    (s.setCurrent v).keep c = (s.keep c).setCurrent v := by
  obtain ⟨n, rfl⟩ := Nat.exists_eq_add_of_le' hc
  obtain ⟨values, capacity⟩ := s
  cases values with
  | nil => simp [keep, setCurrent]
  | cons u older => simp [keep, setCurrent]

theorem keep_advance (hc : 1 ≤ c) (hs : s.capacity = none) :
    s.advance.keep c = (s.keep c).advance := by
  obtain ⟨n, rfl⟩ := Nat.exists_eq_add_of_le' hc
  obtain ⟨values, capacity⟩ := s
  cases (hs : capacity = none)
  cases values with
  | nil => simp [keep, advance]
  | cons u older =>
    cases n with
    | zero => rfl
    | succ n => simp [keep, advance, push, cut, take_take]

theorem keep_set (i : Nat) (v : α) : (s.set i v).keep c = (s.keep c).set i v := by
  simp [keep, set, take_set]

theorem keep_withCurrent (hc : 1 ≤ c) (v : α) :
    (withCurrent v none).keep c = withCurrent v (some c) := by
  obtain ⟨n, rfl⟩ := Nat.exists_eq_add_of_le' hc
  simp [keep, withCurrent, push, cut, new]

theorem keep_new (hc : 1 ≤ c) : (new none : History α).keep c = new (some c) := by
  simp [keep, new, hc]

end History

theorem Machine.keep_setBar (hc : 1 ≤ c) (s : History Value) (i : Nat) (v : Value) :
    (setBar s i v).keep c = setBar (s.keep c) i v := by
  have hlength : (s.keep c).values.length = min c s.values.length := length_take
  by_cases hi : i < s.values.length
  · have hreach : s.reaches i = true := decide_eq_true hi
    by_cases hic : i < c
    · have hreach' : (s.keep c).reaches i = true := decide_eq_true (by omega)
      simp only [setBar, hreach, hreach', if_true]
      exact s.keep_set i v
    · -- the value is one that is forgotten
      have hreach' : (s.keep c).reaches i = false := decide_eq_false (by omega)
      have hzero : (i == 0) = false := beq_false_of_ne (by omega)
      simp only [setBar, hreach, hreach', hzero, if_true, Bool.false_eq_true, if_false]
      rw [s.keep_set]
      unfold History.set
      rw [set_eq_of_length_le (by omega)]
  · have hreach : s.reaches i = false := decide_eq_false hi
    have hreach' : (s.keep c).reaches i = false := decide_eq_false (by omega)
    simp only [setBar, hreach, hreach', Bool.false_eq_true, if_false]
    split
    · exact s.keep_setCurrent hc v
    · rfl

theorem Machine.capacity_setBar (s : History Value) (i : Nat) (v : Value) :
    (setBar s i v).capacity = s.capacity := by
  unfold setBar
  split
  · rfl
  · split
    · exact s.capacity_setCurrent v
    · rfl

/-! ## Heaps -/

/-- A value that is looked at no further back than a number of bars. -/
def Value.Within (c : Nat) (v : Value) : Prop :=
  ∀ i ∈ v.viewed, i < c

theorem Value.within_of_not_isSeries {v : Value} (hv : ¬ v.IsSeries) : v.Within c := by
  cases v with
  | series r offset => exact absurd trivial hv
  | _ => exact fun _ hi => nomatch hi

namespace Heap

/-- A heap whose histories keep a number of values each. -/
def keep (c : Nat) (h : Heap) : Heap :=
  { h with histories := h.histories.map (History.keep c) }

variable {h : Heap} {v : Value}

theorem values_keep (r : Ref) : ((h.keep c).history r).values = (h.history r).values.take c := by
  unfold history keep
  rw [Array.getD_eq_getD_getElem?, Array.getD_eq_getD_getElem?, Array.getElem?_map]
  cases h.histories[r]? with
  | none => exact take_nil.symm
  | some s => rfl

theorem lookup?_keep (env : Env) (name : String) :
    (h.keep c).lookup? env name = h.lookup? env name := by
  induction env with
  | nil => rfl
  | cons r outer ih =>
    unfold lookup?
    rw [ih]
    rfl

theorem frameOf?_keep (env : Env) (name : String) :
    (h.keep c).frameOf? env name = h.frameOf? env name := by
  induction env with
  | nil => rfl
  | cons r outer ih =>
    unfold frameOf?
    rw [ih]
    rfl

theorem seriesGet_keep (hi : offset + i < c) :
    (h.keep c).seriesGet r offset i = h.seriesGet r offset i := by
  unfold seriesGet History.get?
  rw [values_keep, getElem?_take_of_lt hi]

theorem current_keep (hv : v.Within c) : (h.keep c).current v = h.current v := by
  cases v with
  | series r offset => exact seriesGet_keep (hv offset mem_cons_self)
  | _ => rfl

theorem Sound.keep (hs : h.Sound) : (h.keep c).Sound := { hs with
  history r v hv := by
    rw [values_keep] at hv
    exact hs.history r v (mem_of_mem_take hv) }

theorem depthBound_keep : (h.keep c).depthBound = h.depthBound := by
  unfold depthBound Heap.keep
  simp only [Array.size_map]

section Sound

variable (hs : h.Sound)

include hs

theorem settle_keep (hv : v.Within c) : (h.keep c).settle v = h.settle v := by
  rw [hs.keep.settle_eq_current, hs.settle_eq_current, current_keep hv]

theorem number_keep (hv : v.Within c) : (h.keep c).number v = h.number v := by
  unfold number
  rw [settle_keep hs hv]

theorem truthy_keep (hv : v.Within c) : (h.keep c).truthy v = h.truthy v := by
  unfold truthy
  rw [settle_keep hs hv]

theorem isNa_keep (hv : v.Within c) : (h.keep c).isNa v = h.isNa v := by
  unfold isNa
  rw [settle_keep hs hv]

theorem position?_keep (hv : v.Within c) : (h.keep c).position? v = h.position? v := by
  unfold position?
  rw [number_keep hs hv]

theorem bars_keep (hv : v.Within c) : (h.keep c).bars v = h.bars v := by
  unfold bars
  rw [number_keep hs hv]

theorem current_within (v : Value) : (h.current v).Within c :=
  Value.within_of_not_isSeries (hs.current v)

/-! ## Texts -/

theorem displayWithin_keep (n : Nat) (hv : v.Within c) :
    (h.keep c).displayWithin n v = h.displayWithin n v := by
  induction n generalizing v with
  | zero => rfl
  | succ n ih =>
    unfold displayWithin
    rw [settle_keep hs hv]
    cases h.settle v with
    | array r =>
      exact congrArg (Option.map (",".intercalate ·)) (mapM_congr_of_mem fun w hw =>
        ih (Value.within_of_not_isSeries (hs.array r w hw)))
    | _ => rfl

theorem display?_keep (hv : v.Within c) : (h.keep c).display? v = h.display? v := by
  unfold display?
  rw [depthBound_keep]
  exact displayWithin_keep hs _ hv

theorem snapshotWithin_keep (n : Nat) (hv : v.Within c) :
    (h.keep c).snapshotWithin true n v = h.snapshotWithin true n v := by
  induction n generalizing v with
  | zero => rfl
  | succ n ih =>
    unfold snapshotWithin
    simp only [if_true]
    have hsettled : ¬ (h.settle v).IsSeries := by
      rw [hs.settle_eq_current]
      exact hs.current v
    rw [settle_keep hs hv]
    revert hsettled
    cases h.settle v with
    | array r =>
      exact fun _ => congrArg (Option.map Snapshot.array) (mapM_congr_of_mem fun w hw =>
        ih (Value.within_of_not_isSeries (hs.array r w hw)))
    | object r =>
      refine fun _ => congrArg (Option.map Snapshot.object) (mapM_congr_of_mem fun p hp => ?_)
      have hp := mem_map_of_mem (f := Prod.snd) hp
      exact congrArg (Option.map fun s => (p.1, s))
        (ih (Value.within_of_not_isSeries (hs.object r p.2 hp)))
    | series r offset => exact fun h => absurd trivial h
    | _ => exact fun _ => rfl

theorem collapsed?_keep (hv : v.Within c) : (h.keep c).collapsed? v = h.collapsed? v := by
  unfold collapsed?
  rw [depthBound_keep]
  exact snapshotWithin_keep hs _ hv

theorem rounded?_keep (scale : Float) (n : Nat) (hv : v.Within c) :
    Machine.rounded? (h.keep c) scale n v = Machine.rounded? h scale n v := by
  induction n generalizing v with
  | zero => rfl
  | succ n ih =>
    cases v with
    | array r =>
      refine congrArg (Option.map Machine.Rounded.array) (mapM_congr_of_mem fun w hw => ?_)
      have hw := hs.array r w hw
      rw [current_keep (Value.within_of_not_isSeries hw)]
      exact ih (current_within hs w)
    | _ => rfl

/-! ## Operators -/

variable {l r : Value}

theorem looseEq_keep (hl : l.Within c) (hr : r.Within c) :
    (h.keep c).looseEq l r = h.looseEq l r := by
  have hnumber : ((h.keep c).number l == (h.keep c).number r) = (h.number l == h.number r) := by
    rw [number_keep hs hl, number_keep hs hr]
  cases l <;> cases r <;> first | exact hnumber | rfl

theorem compare?_keep (hl : l.Within c) (hr : r.Within c) :
    (h.keep c).compare? l r = h.compare? l r := by
  have hnumber : ∀ k : Heap, (∀ a b, l = .str a → r = .str b → False) →
      k.compare? l r = if k.number l < k.number r then some .lt
        else if k.number l == k.number r then some .eq
        else if k.number l > k.number r then some .gt else none := fun k hne => by
    rw [compare?.eq_2 _ _ _ hne]
  by_cases hstr : ∃ a b, l = .str a ∧ r = .str b
  · obtain ⟨a, b, rfl, rfl⟩ := hstr
    rfl
  · have hne : ∀ a b, l = .str a → r = .str b → False := fun a b ha hb => hstr ⟨a, b, ha, hb⟩
    rw [hnumber _ hne, hnumber _ hne, number_keep hs hl, number_keep hs hr]

theorem tolerantEq_keep (hl : l.Within c) (hr : r.Within c) :
    (h.keep c).tolerantEq l r = h.tolerantEq l r := by
  unfold tolerantEq
  rw [current_keep hl, current_keep hr]
  have hnumber := congrArg₂ closeEnough (number_keep (c := c) hs (current_within hs l))
    (number_keep (c := c) hs (current_within hs r))
  generalize h.current l = l, h.current r = r at hnumber ⊢
  cases l <;> cases r <;> first | exact hnumber | rfl

theorem join?_keep (hl : l.Within c) (hr : r.Within c) : (h.keep c).join? l r = h.join? l r := by
  unfold join?
  rw [display?_keep hs hl, display?_keep hs hr]

theorem add?_keep (hl : l.Within c) (hr : r.Within c) : (h.keep c).add? l r = h.add? l r := by
  have hjoin := join?_keep hs hl hr
  have hnumber : some (Value.number ((h.keep c).number l + (h.keep c).number r)) =
      some (.number (h.number l + h.number r)) := by
    rw [number_keep hs hl, number_keep hs hr]
  cases l <;> cases r <;> first | exact hjoin | exact hnumber

theorem binary?_keep (op : BinaryOp) (hl : l.Within c) (hr : r.Within c) :
    (h.keep c).binary? op l r = h.binary? op l r := by
  have hl' := current_within (c := c) hs l
  have hr' := current_within (c := c) hs r
  unfold binary?
  dsimp only
  rw [current_keep hl, current_keep hr, compare?_keep hs hl' hr', looseEq_keep hs hl' hr',
    add?_keep hs hl' hr', number_keep hs hl', number_keep hs hr']

theorem unary_keep (op : UnaryOp) (hv : v.Within c) : (h.keep c).unary op v = h.unary op v := by
  unfold unary
  rw [truthy_keep hs hv, number_keep hs hv]

theorem settles_keep (op : LogicalOp) (hv : v.Within c) :
    (h.keep c).settles op v = h.settles op v := by
  unfold settles
  rw [truthy_keep hs hv, current_keep hv]

/-! ## Windows -/

/-- A window that is filled within the bars that are kept, or is not filled. -/
theorem window?_keep (hlen : ¬ (len == 0 || h.seriesLength q offset < len) → offset + (len - 1) < c)
    :
    (h.keep c).window? q offset len = h.window? q offset len := by
  have hlength : (h.keep c).seriesLength q offset = min c (h.history q).values.length - offset := by
    unfold seriesLength History.length
    rw [values_keep, length_take]
  have hlength' : h.seriesLength q offset = (h.history q).values.length - offset := rfl
  unfold window?
  by_cases hfull : (len == 0 || h.seriesLength q offset < len) = true
  · have hshort : (len == 0 || (h.keep c).seriesLength q offset < len) = true := by
      simp only [Bool.or_eq_true, beq_iff_eq, decide_eq_true_eq] at hfull ⊢
      omega
    rw [if_pos hfull, if_pos hshort]
  · have hfits := hlen hfull
    have hlong : ¬ (len == 0 || (h.keep c).seriesLength q offset < len) = true := by
      simp only [Bool.or_eq_true, beq_iff_eq, decide_eq_true_eq] at hfull ⊢
      omega
    rw [if_neg hfull, if_neg hlong]
    have hvalues : ((h.keep c).seriesValues q offset).take len =
        (h.seriesValues q offset).take len := by
      unfold seriesValues
      rw [values_keep, drop_take, take_take, Nat.min_eq_left (by omega)]
    rw [hvalues]
    refine congrArg some (map_congr_left fun u hu => ?_)
    have hu := hs.history q u (mem_of_mem_drop (mem_of_mem_take hu))
    exact number_keep hs (Value.within_of_not_isSeries hu)

end Sound

end Heap

/-! ## Arguments -/

namespace Library

variable {h : Heap} {args : List Value} {i : Nat}

theorem within_of_argReads (hv : args[i]? = some v) (hi : ∀ k ∈ argReads args i, k < c) :
    v.Within c := by
  unfold argReads at hi
  rw [hv] at hi
  exact hi

theorem arg_within (hi : ∀ k ∈ argReads args i, k < c) : (arg args i).Within c := by
  unfold arg
  rw [getD_eq_getElem?_getD]
  cases hv : args[i]? with
  | none => exact fun _ hk => nomatch hk
  | some v => exact within_of_argReads hv hi

theorem currents_keep (hi : ∀ k ∈ allReads args, k < c) :
    args.map (h.keep c).current = args.map h.current :=
  map_congr_left fun _ hv => Heap.current_keep fun k hk =>
    hi k (mem_flatMap_of_mem hv hk)

variable (hs : h.Sound)

include hs

theorem num_keep (hi : ∀ k ∈ argReads args i, k < c) : num (h.keep c) args i = num h args i := by
  unfold num
  cases hv : args[i]? with
  | none => rfl
  | some v => exact Heap.number_keep hs (within_of_argReads hv hi)

theorem length_keep {default : Option Nat} (hi : ∀ k ∈ argReads args i, k < c) :
    length function (h.keep c) args i default = length function h args i default := by
  unfold length
  rw [num_keep hs hi]

theorem nums_keep (hi : ∀ k ∈ allReads args, k < c) : nums (h.keep c) args = nums h args :=
  map_congr_left fun _ hv => Heap.number_keep hs fun k hk =>
    hi k (mem_flatMap_of_mem hv hk)

theorem window?_keep (hi : ∀ k ∈ h.windowReads args i len, k < c)
    : window? (h.keep c) args i len = window? h args i len := by
  unfold window?
  unfold Heap.windowReads at hi
  cases hv : args[i]? with
  | none => rfl
  | some v =>
    rw [hv] at hi
    cases v with
    | series r offset =>
      refine Heap.window?_keep hs fun hfull => ?_
      simp only at hi
      rw [if_neg hfull] at hi
      exact hi _ mem_cons_self
    | _ => rfl

theorem overWindow_keep {f : List Float → Float} (hi : ∀ k ∈ h.windowReads args i len, k < c) :
    overWindow (h.keep c) args i len f = overWindow h args i len f := by
  unfold overWindow
  rw [window?_keep hs hi]

theorem crossing_keep {crossed : List Float → List Float → Bool}
    (h₀ : ∀ k ∈ h.windowReads args 0 2, k < c) (h₁ : ∀ k ∈ h.windowReads args 1 2, k < c) :
    crossing (h.keep c) args crossed = crossing h args crossed := by
  unfold crossing
  rw [window?_keep hs h₀, window?_keep hs h₁]

theorem flag_keep {default : Bool} (hi : ∀ k ∈ argReads args i, k < c) :
    flag (h.keep c) args i default = flag h args i default := by
  unfold flag
  cases hv : args[i]? with
  | none => rfl
  | some v =>
    dsimp only
    have htruthy := Heap.truthy_keep (c := c) hs (Heap.current_within hs v)
    rw [Heap.current_keep (within_of_argReads hv hi)]
    revert htruthy
    cases h.current v with
    | na => exact fun _ => rfl
    | _ => exact id

theorem nz_keep (hi : ∀ k ∈ coreReads "nz" h args, k < c) : nz (h.keep c) args = nz h args := by
  unfold coreReads at hi
  have h₀ := arg_within fun k hk => hi k (mem_append_left _ hk)
  have hna := Heap.isNa_keep (c := c) hs (Heap.current_within hs (arg args 0))
  unfold nz
  dsimp only
  rw [Heap.current_keep h₀, hna]
  cases hmissing : h.isNa (h.current (arg args 0)) with
  | false => rfl
  | true =>
    cases hv : args[1]? with
    | none => rfl
    | some v =>
      refine Heap.current_keep (within_of_argReads hv fun k hk => hi k ?_)
      rw [hmissing]
      exact mem_append_right _ hk

end Library

end BarScript

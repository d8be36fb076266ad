import BarScript.Proofs.Simulation.Basic

/-!
# Nested readings on corresponding machines

Displays, texts in messages, snapshots and roundings go down through arrays and
objects. Corresponding values have corresponding parts, so with one depth they
read alike; and neither machine runs out of depth before the other, since both
have more of it than there are places to go through.
-/

namespace BarScript

open Machine Correspondence Nat

theorem mapM_eq_of_forall₂ {α β γ : Type} {R : α → β → Prop} {f : α → Option γ}
    {g : β → Option γ} {l : List α} {l' : List β} (h : List.Forall₂ R l l')
    (hfg : ∀ a b, R a b → f a = g b) : l.mapM f = l'.mapM g := by
  induction h with
  | nil => rfl
  | cons hab _ ih => rw [List.mapM_cons, List.mapM_cons, hfg _ _ hab, ih]

namespace Likeness

variable {W : Type} (S : Likeness W) {w : W} {m n : Machine} {v v' u u' : Value}

theorem places_lt_depthBound (h : Heap) : h.places + 1 < h.depthBound := by
  unfold Heap.places Heap.depthBound
  omega

/-! ## Displays -/

theorem displayWithin_eq (hmn : S.rel w m n) (hv : S.val w v v') (k : Nat) :
    m.heap.displayWithin k v = n.heap.displayWithin k v' := by
  induction k generalizing v v' with
  | zero => rfl
  | succ k ih =>
    have hset := S.settle hmn hv
    unfold Heap.displayWithin
    generalize m.heap.settle v = a, n.heap.settle v' = b at hset ⊢
    cases S.alike hset with
    | array r r' =>
      dsimp only
      rw [mapM_eq_of_forall₂ (S.arrayItems hmn hset) fun a b hab => ih hab.1]
    | _ => rfl

/-- **Displays** of corresponding values are the same text. -/
theorem display?_eq (hmn : S.rel w m n) (hv : S.val w v v') :
    m.heap.display? v = n.heap.display? v' := by
  have hdepth : m.heap.displayWithin m.heap.depthBound v =
      m.heap.displayWithin n.heap.depthBound v := by
    rw [Heap.displayWithin_eq, Heap.displayWithin_eq]
    refine m.heap.reads_alike (P := fun _ => True) m.heap.settle m.heap.displayParts
      (fun _ _ => rfl) (fun u hu => ?_) (fun _ _ _ _ => trivial)
      (lt_of_succ_lt (places_lt_depthBound _))
      (lt_of_succ_lt (S.depth hmn)) trivial
    cases u with
    | array r => exact hu
    | _ => rfl
  exact hdepth.trans (S.displayWithin_eq hmn hv _)

/-! ## Texts in messages -/

theorem seriesLength_eq (hmn : S.rel w m n) (hs : S.val w (.series r o) (.series r' o)) :
    m.heap.seriesLength r o = n.heap.seriesLength r' o := by
  rw [Heap.seriesLength_eq, Heap.seriesLength_eq]
  exact (S.seriesValues hmn hs).length_eq

theorem debugWithin_eq (hmn : S.rel w m n) (hv : S.val w v v') (k : Nat) :
    m.heap.debugWithin k v = n.heap.debugWithin k v' := by
  induction k generalizing v v' with
  | zero => rfl
  | succ k ih =>
    cases S.alike hv with
    | array r r' =>
      unfold Heap.debugWithin
      dsimp only
      rw [mapM_eq_of_forall₂ (S.arrayItems hmn hv) fun a b hab => ih hab.1]
    | object r r' =>
      unfold Heap.debugWithin
      dsimp only
      rw [mapM_eq_of_forall₂ (S.objectEntries hmn hv) fun p q hpq => by
        rw [hpq.1, ih hpq.2.1]]
    | series r r' o =>
      unfold Heap.debugWithin
      dsimp only
      rw [S.seriesLength_eq hmn hv]
    | _ => rfl

/-- **Texts in messages** are the same for corresponding values. -/
theorem debug?_eq (hmn : S.rel w m n) (hv : S.val w v v') : m.heap.debug? v = n.heap.debug? v' := by
  have hdepth : m.heap.debugWithin m.heap.depthBound v =
      m.heap.debugWithin n.heap.depthBound v := by
    rw [Heap.debugWithin_eq, Heap.debugWithin_eq]
    exact m.heap.reads_alike (P := fun _ => True) id m.heap.contents (fun _ _ => rfl)
      (fun _ hu => hu) (fun _ _ _ _ => trivial) (lt_of_succ_lt (places_lt_depthBound _))
      (lt_of_succ_lt (S.depth hmn)) trivial
  exact hdepth.trans (S.debugWithin_eq hmn hv _)

/-! ## Snapshots -/

theorem snapshotWithin_eq (hmn : S.rel w m n) (hv : S.val w v v') (collapse : Bool) (k : Nat) :
    m.heap.snapshotWithin collapse k v = n.heap.snapshotWithin collapse k v' := by
  induction k generalizing v v' with
  | zero => rfl
  | succ k ih =>
    have hseen : S.val w (if collapse then m.heap.settle v else v)
        (if collapse then n.heap.settle v' else v') := by
      split
      · exact S.settle hmn hv
      · exact hv
    unfold Heap.snapshotWithin
    revert hseen
    generalize (if collapse = true then m.heap.settle v else v) = a
    generalize (if collapse = true then n.heap.settle v' else v') = b
    intro hseen
    have hdebug := S.debugWithin_eq hmn hseen (k + 1)
    cases S.alike hseen with
    | array r r' =>
      dsimp only
      rw [mapM_eq_of_forall₂ (S.arrayItems hmn hseen) fun a b hab => ih hab.1]
    | object r r' =>
      dsimp only
      rw [mapM_eq_of_forall₂ (S.objectEntries hmn hseen) fun p q hpq => by
        rw [hpq.1, ih hpq.2.1]]
    | series r r' o =>
      dsimp only
      rw [mapM_eq_of_forall₂ (S.seriesValues hmn hseen) fun a b hab => ih hab.1]
    | na | number | bool | str => rfl
    | func | native | group | context | bucket | contextFn => 
      exact congrArg (Option.map Snapshot.handle) hdebug

/-- **Collapsed snapshots** of corresponding values are the same. -/
theorem collapsed?_eq (hmn : S.rel w m n) (hv : S.val w v v') :
    m.heap.collapsed? v = n.heap.collapsed? v' := by
  have hdepth : m.heap.snapshotWithin true m.heap.depthBound v =
      m.heap.snapshotWithin true n.heap.depthBound v := by
    rw [Heap.snapshotWithin_eq, Heap.snapshotWithin_eq]
    refine m.heap.reads_alike (P := fun _ => True) m.heap.settle m.heap.contents (fun u _ => ?_)
      (fun _ hu => hu) (fun _ _ _ _ => trivial) (lt_of_succ_lt (places_lt_depthBound _))
      (lt_of_succ_lt (S.depth hmn)) trivial
    exact Heap.snapshotParts_eq_contents _ (m.heap.settleWithin_not_series _ u)
  exact hdepth.trans (S.snapshotWithin_eq hmn hv true _)

theorem snapshotWithin_alike {h : Heap} (hs : h.Sound) (hk : h.places < k)
    (hl : h.places < l) (hv : ¬ v.IsSeries) :
    h.snapshotWithin false k v = h.snapshotWithin false l v := by
  rw [Heap.snapshotWithin_eq, Heap.snapshotWithin_eq]
  refine h.reads_alike id h.contents (fun _ => h.snapshotParts_eq_contents) (fun _ hu => hu)
    (fun u hu x hx => hs.snapshotParts hx) hk hl hv

theorem snapshotWithin_series_alike {h : Heap} (hs : h.Sound) (hk : h.places < k)
    (hl : h.places < l) (r : Ref) (o : Nat) :
    h.snapshotWithin false (k + 1) (.series r o) = h.snapshotWithin false (l + 1) (.series r o) :=
  congrArg (Option.map (Snapshot.series · o)) (mapM_congr_of_mem fun u hu =>
    snapshotWithin_alike hs hk hl (hs.history r u (List.mem_of_mem_drop hu)))

/-- **Snapshots** of corresponding values are the same. -/
theorem snapshot?_eq (hmn : S.rel w m n) (hv : S.val w v v') :
    m.heap.snapshot? v = n.heap.snapshot? v' := by
  have hs := S.sound hmn
  have hm := places_lt_depthBound m.heap
  have hn := S.depth hmn
  have hdepth : m.heap.snapshotWithin false m.heap.depthBound v =
      m.heap.snapshotWithin false n.heap.depthBound v := by
    cases v with
    | series r o =>
      obtain ⟨k, hk⟩ := exists_eq_add_one_of_ne_zero (ne_zero_of_lt hm)
      obtain ⟨l, hl⟩ := exists_eq_add_one_of_ne_zero (ne_zero_of_lt hn)
      rw [hk] at hm ⊢
      rw [hl] at hn ⊢
      exact snapshotWithin_series_alike hs (lt_of_succ_lt_succ hm) (lt_of_succ_lt_succ hn) r o
    | _ => exact snapshotWithin_alike hs (lt_of_succ_lt hm) (lt_of_succ_lt hn) id
  exact hdepth.trans (S.snapshotWithin_eq hmn hv false _)

/-! ## Roundings -/

theorem roundingLists_mapM (h : S.Items w l l') {f g : Value → Option Rounded}
    (hfg : ∀ v v', S.Held w v v' → Option.Rel (S.Roundings w) (f v) (g v')) :
    Option.Rel (S.RoundingLists w) (l.mapM f) (l'.mapM g) := by
  induction h with
  | nil => exact .some .nil
  | @cons v v' l l' hv _ ih =>
    rw [List.mapM_cons, List.mapM_cons]
    have hhead := hfg v v' hv
    revert hhead ih
    generalize f v = o
    generalize g v' = o'
    generalize l.mapM f = os
    generalize l'.mapM g = os'
    intro ih hhead
    cases hhead with
    | none => exact .none
    | some ht =>
      cases ih with
      | none => exact .none
      | some hts => exact .some (.cons ht hts)

theorem roundedWithin_rel (hmn : S.rel w m n) (hv : S.Held w v v') (scale : Float) (k : Nat) :
    Option.Rel (S.Roundings w) (rounded? m.heap scale k v) (rounded? n.heap scale k v') := by
  induction k generalizing v v' with
  | zero => exact .none
  | succ k ih =>
    have hself : Option.Rel (S.Roundings w) (some (.value v)) (some (.value v')) :=
      .some (.value hv)
    cases S.alike hv.1 with
    | number x => exact .some (.value ⟨S.free trivial, id⟩)
    | array r r' =>
      unfold rounded?
      have hlists := S.roundingLists_mapM (S.arrayItems hmn hv.1) fun a b hab =>
        ih (S.current_held hmn hab.1)
      exact optionRel_map hlists fun _ _ hl => .array hl
    | _ => exact hself

/-- **Roundings** of corresponding values correspond. -/
theorem rounded?_rel (hmn : S.rel w m n) (hv : S.Held w v v') (scale : Float) :
    Option.Rel (S.Roundings w) (rounded? m.heap scale m.heap.depthBound v)
      (rounded? n.heap scale n.heap.depthBound v') := by
  have hdepth : rounded? m.heap scale m.heap.depthBound v =
      rounded? m.heap scale n.heap.depthBound v := by
    rw [rounded?_eq, rounded?_eq]
    refine m.heap.reads_alike (P := fun _ => True) id (roundedParts m.heap) (fun _ _ => rfl)
      (fun u hu => ?_) (fun _ _ _ _ => trivial) (lt_of_succ_lt (places_lt_depthBound _))
      (lt_of_succ_lt (S.depth hmn)) trivial
    cases u with
    | array r => exact congrArg (List.map m.heap.current) hu
    | _ => rfl
  rw [hdepth]
  exact S.roundedWithin_rel hmn hv scale _

/-! ## Operators -/

theorem join?_rel (hmn : S.rel w m n) (hv : S.val w v v') (hu : S.val w u u') :
    Option.Rel (S.val w) (m.heap.join? v u) (n.heap.join? v' u') := by
  unfold Heap.join?
  rw [S.display?_eq hmn hv, S.display?_eq hmn hu]
  cases n.heap.display? v' with
  | none => exact .none
  | some s =>
    cases n.heap.display? u' with
    | none => exact .none
    | some t => exact .some (S.free trivial)

theorem add?_rel (hmn : S.rel w m n) (hv : S.val w v v') (hu : S.val w u u') :
    Option.Rel (S.val w) (m.heap.add? v u) (n.heap.add? v' u') := by
  have hj := S.join?_rel hmn hv hu
  have hnv := S.number_eq hmn hv
  have hnu := S.number_eq hmn hu
  have hsum : Option.Rel (S.val w) (some (.number (m.heap.number v + m.heap.number u)))
      (some (.number (n.heap.number v' + n.heap.number u'))) := by
    rw [hnv, hnu]
    exact .some (S.free trivial)
  cases S.alike hv with
  | str s => exact hj
  | _ =>
    cases S.alike hu with
    | str s => exact hj
    | _ => exact hsum

/-- **Binary operators** give corresponding values, or neither gives one. -/
theorem binary?_rel (hmn : S.rel w m n) (op : BinaryOp) (hv : S.val w v v') (hu : S.val w u u') :
    Option.Rel (S.val w) (m.heap.binary? op v u) (n.heap.binary? op v' u') := by
  have hv := (S.current_held hmn hv).1
  have hu := (S.current_held hmn hu).1
  have hnv := S.number_eq hmn hv
  have hnu := S.number_eq hmn hu
  have hc := S.compare?_eq hmn hv hu
  have hl := S.looseEq_eq hmn hv hu
  cases op with
  | add => exact S.add?_rel hmn hv hu
  | _ =>
    simp only [Heap.binary?, hnv, hnu, hc, hl]
    exact .some (S.free trivial)

/-! ## Assignments -/

section Assignments

variable {S} {host host' : Host} {ρ ρ' : Env} {target value : Expr}

/-- An assignment corresponds if the value and the target do and the target can
be written with corresponding values. -/
theorem assign_agree (hvalue : S.Agree w S.val (value.eval host ρ) (value.eval host' ρ'))
    (htarget : ∀ w', S.le w w' → S.Agree w' S.val (target.eval host ρ) (target.eval host' ρ'))
    (hwrite : ∀ w', S.le w w' → ∀ v v', S.val w' v v' →
      S.Agree w' same (target.write host ρ v) (target.write host' ρ' v')) :
    S.Agree w S.val ((Expr.assign op target value).eval host ρ)
      ((Expr.assign op target value).eval host' ρ') := by
  refine hvalue.bind fun w₁ hw₁ rhs rhs' hrhs => ?_
  have hstore : ∀ w₂, S.le w w₂ → ∀ v v', S.val w₂ v v' →
      S.Agree w₂ S.val (do target.write host ρ v; return v)
        (do target.write host' ρ' v'; return v') := fun w₂ hw₂ v v' hv =>
    (hwrite w₂ hw₂ v v' hv).bind fun _ hw₃ _ _ _ => agree_pure (S.val_mono hw₃ hv)
  cases op.binary? with
  | none => exact hstore w₁ hw₁ rhs rhs' hrhs
  | some bop =>
    refine (htarget w₁ hw₁).bind fun w₂ hw₂ old old' hold => ?_
    refine (agree_heap? (Q := S.val) fun _ _ hmn =>
      S.binary?_rel hmn bop hold (S.val_mono hw₂ hrhs)).bind fun w₃ hw₃ v v' hv => ?_
    exact hstore w₃ (S.trans hw₁ (S.trans hw₂ hw₃)) v v' hv

/-- An update corresponds if its target does and can be written. -/
theorem update_agree (htarget : S.Agree w S.val (target.eval host ρ) (target.eval host' ρ'))
    (hwrite : ∀ w', S.le w w' → ∀ x,
      S.Agree w' same (target.write host ρ (.number x)) (target.write host' ρ' (.number x))) :
    S.Agree w S.val ((Expr.update op first target).eval host ρ)
      ((Expr.update op first target).eval host' ρ') := by
  refine htarget.bind fun w₁ hw₁ v v' hv => ?_
  refine (agree_heap_eq fun _ _ hmn => S.number_eq hmn hv).bind_same fun w₂ hw₂ old => ?_
  exact (hwrite w₂ (S.trans hw₁ hw₂) _).bind fun _ _ _ _ _ => agree_pure (S.free trivial)

end Assignments

end Likeness

end BarScript

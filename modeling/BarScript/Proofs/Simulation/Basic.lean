import BarScript.Proofs.Readings

/-!
# What the evaluator may be compared through

The evaluator touches a machine through few operations: it reads series,
arrays, objects, frames and the context, and it allocates and writes them. A
correspondence under which values read alike is a `Likeness`; it is a
`Resemblance` if names and the context do as well, has `Operations` if these keep
it, and is a `Simulation` if all work does. It is stated once what each operation does
to corresponding machines;
that whole runs then correspond is a fact about the evaluator alone
(`Proofs.Simulation.Eval`).

Assignments are asked for as a whole. Which of them keep the machines in
correspondence depends on the shape of the script, and a compiled script
assigns to a slot only in ways that must be looked at together with the value
they assign.
-/

namespace BarScript

/-- The expressions directly inside one, as far as assignments look. -/
def Expr.parts : Expr → List Expr
  | .member base _ => [base]
  | .index base sub => [base, sub]
  | .call callee args => callee :: args
  | _ => []

/-- A correspondence under which values read alike. -/
structure Likeness (W : Type) extends Correspondence W where
  alike : ∀ {w v v'}, val w v v' → v.Alike v'
  free : ∀ {w v}, v.IsFree → val w v v
  func : ∀ {w f ρ ρ'}, env w ρ ρ' → f.All shape → val w (.func f ρ) (.func f ρ')
  func_inv : ∀ {w f ρ ρ'}, val w (.func f ρ) (.func f ρ') → env w ρ ρ' ∧ f.All shape
  shifted : ∀ {w r r' o}, val w (.series r o) (.series r' o) →
    ∀ k, val w (.series r k) (.series r' k)
  settle : ∀ {w m n v v'}, rel w m n → val w v v' → val w (m.heap.settle v) (n.heap.settle v')
  seriesValues : ∀ {w m n r r' o}, rel w m n → val w (.series r o) (.series r' o) →
    toCorrespondence.Items w (m.heap.seriesValues r o) (n.heap.seriesValues r' o)
  arrayItems : ∀ {w m n r r'}, rel w m n → val w (.array r) (.array r') →
    toCorrespondence.Items w (m.heap.array r).toList (n.heap.array r').toList
  objectEntries : ∀ {w m n r r'}, rel w m n → val w (.object r) (.object r') →
    toCorrespondence.Fields w (m.heap.object r).entries (n.heap.object r').entries
  array_eq : ∀ {w a a' b b'}, val w (.array a) (.array a') → val w (.array b) (.array b') →
    (a = b ↔ a' = b')
  object_eq : ∀ {w a a' b b'}, val w (.object a) (.object a') → val w (.object b) (.object b') →
    (a = b ↔ a' = b')
  sound : ∀ {w m n}, rel w m n → m.heap.Sound
  /-- Either machine has depth enough for the values of the first. -/
  depth : ∀ {w m n}, rel w m n → m.heap.places + 1 < n.heap.depthBound

/-- A correspondence that every reading of the evaluator goes through. -/
structure Resemblance (W : Type) extends Likeness W where
  lookup : ∀ {w m n ρ ρ'}, rel w m n → env w ρ ρ' → ∀ x,
    Option.Rel (val w) (m.heap.lookup? ρ x) (n.heap.lookup? ρ' x)
  config : ∀ {w m n}, rel w m n → m.context.config = n.context.config
  steps : ∀ {w m n}, rel w m n → m.context.steps = n.context.steps
  kernels : ∀ {w m n}, rel w m n → m.context.kernels = n.context.kernels
  dataSeries : ∀ {w m n}, rel w m n → ∀ x, val w (m.context.dataSeries x) (n.context.dataSeries x)
  slot : ∀ {w m n}, rel w m n → ∀ b x, val w (m.context.slot b x) (n.context.slot b x)

/-- A resemblance that the operations of the evaluator keep. -/
structure Operations (W : Type) extends Resemblance W where
  newArray : ∀ {w l l'}, toCorrespondence.Items w l l' →
    toCorrespondence.Agree w toCorrespondence.Held (Exec.alloc fun h => h.newArray l.toArray)
      (Exec.alloc fun h => h.newArray l'.toArray)
  newObject : ∀ {w l l'}, toCorrespondence.Fields w l l' →
    toCorrespondence.Agree w val (Exec.alloc fun h => h.newObject (.ofList l))
      (Exec.alloc fun h => h.newObject (.ofList l'))
  newFrame : ∀ {w ρ ρ' l l'}, env w ρ ρ' → toCorrespondence.Entries w l l' →
    (∀ p ∈ l, shape.name p.1) →
    toCorrespondence.Agree w (fun w r r' => env w (r :: ρ) (r' :: ρ'))
      (Exec.alloc fun h => h.newFrame (.ofList l)) (Exec.alloc fun h => h.newFrame (.ofList l'))
  newSeries : ∀ {w v v'}, toCorrespondence.Held w v v' →
    toCorrespondence.Agree w (fun w r r' => val w (.series r 0) (.series r' 0))
      (Machine.newSeries v) (Machine.newSeries v')
  paramHistory : ∀ {w} id,
    toCorrespondence.Steady w (fun w r r' => val w (.series r 0) (.series r' 0))
      (Machine.paramHistory id)
  setCurrent : ∀ {w r r' o v v'}, val w (.series r o) (.series r' o) →
    toCorrespondence.Held w v v' →
    toCorrespondence.Agree w Correspondence.same
      (Exec.modifyHeap fun h => h.modifyHistory r fun s => s.setCurrent v)
      (Exec.modifyHeap fun h => h.modifyHistory r' fun s => s.setCurrent v')
  modifyArray : ∀ {w r r' f f'}, val w (.array r) (.array r') →
    (∀ w', le w w' → ∀ a a' : Array Value, toCorrespondence.Items w' a.toList a'.toList →
      toCorrespondence.Items w' (f a).toList (f' a').toList) →
    toCorrespondence.Agree w Correspondence.same (Exec.modifyHeap fun h => h.modifyArray r f)
      (Exec.modifyHeap fun h => h.modifyArray r' f')
  defineName : ∀ {w ρ ρ' x v v'}, env w ρ ρ' → val w v v' → shape.name x →
    toCorrespondence.Agree w Correspondence.same (Machine.defineName ρ x v)
      (Machine.defineName ρ' x v')
  setKernels : ∀ {w} ks, toCorrespondence.Steady w Correspondence.same
    (Exec.modifyContext fun c => { c with kernels := ks })

/-- A resemblance that all work of the evaluator keeps: assignments too, given how the
expressions in them run. -/
structure Simulation (W : Type) extends Operations W where
  assign : ∀ {w host host' ρ ρ' op target value}, shape.expr (.assign op target value) →
    toCorrespondence.Hosts w host host' → env w ρ ρ' →
    (∀ e ∈ target :: value :: (target.parts ++ value.parts), ∀ w', le w w' →
      toCorrespondence.Agree w' val (e.eval host ρ) (e.eval host' ρ')) →
    toCorrespondence.Agree w val ((Expr.assign op target value).eval host ρ)
      ((Expr.assign op target value).eval host' ρ')
  update : ∀ {w host host' ρ ρ' op first target}, shape.expr (.update op first target) →
    toCorrespondence.Hosts w host host' → env w ρ ρ' →
    (∀ e ∈ target :: target.parts, ∀ w', le w w' →
      toCorrespondence.Agree w' val (e.eval host ρ) (e.eval host' ρ')) →
    toCorrespondence.Agree w val ((Expr.update op first target).eval host ρ)
      ((Expr.update op first target).eval host' ρ')

theorem Heap.settleWithin_not_series (h : Heap) (n : Nat) (v : Value) :
    ¬ (h.settleWithin n v).IsSeries := by
  induction n generalizing v with
  | zero => exact id
  | succ n ih =>
    cases v with
    | series r offset => exact ih _
    | _ => exact id

theorem Heap.seriesGet_eq (h : Heap) (r : Ref) (offset i : Nat) :
    h.seriesGet r offset i = ((h.seriesValues r offset)[i]?).getD .na := by
  simp [Heap.seriesGet, Heap.seriesValues, History.get?]

theorem Heap.seriesLength_eq (h : Heap) (r : Ref) (offset : Nat) :
    h.seriesLength r offset = (h.seriesValues r offset).length := by
  simp [Heap.seriesLength, Heap.seriesValues, History.length]

namespace Likeness

variable {W : Type} (S : Likeness W) {w : W} {m n : Machine} {v v' u u' : Value}

/-! ## Readings of corresponding values -/

theorem number_eq (hmn : S.rel w m n) (hv : S.val w v v') : m.heap.number v = n.heap.number v' := by
  have h := S.alike (S.settle hmn hv)
  unfold Heap.number
  generalize m.heap.settle v = a, n.heap.settle v' = b at h ⊢
  cases h <;> rfl

theorem truthy_eq (hmn : S.rel w m n) (hv : S.val w v v') : m.heap.truthy v = n.heap.truthy v' := by
  have h := S.alike (S.settle hmn hv)
  unfold Heap.truthy
  generalize m.heap.settle v = a, n.heap.settle v' = b at h ⊢
  cases h <;> rfl

theorem isNa_eq (hmn : S.rel w m n) (hv : S.val w v v') : m.heap.isNa v = n.heap.isNa v' := by
  have h := S.alike (S.settle hmn hv)
  unfold Heap.isNa
  generalize m.heap.settle v = a, n.heap.settle v' = b at h ⊢
  cases h <;> rfl

theorem position?_eq (hmn : S.rel w m n) (hv : S.val w v v') :
    m.heap.position? v = n.heap.position? v' := by
  unfold Heap.position?
  rw [S.number_eq hmn hv]

theorem bars_eq (hmn : S.rel w m n) (hv : S.val w v v') : m.heap.bars v = n.heap.bars v' := by
  unfold Heap.bars
  rw [S.number_eq hmn hv]

theorem held_getD (h : Option.Rel (S.Held w) o o') : S.Held w (o.getD .na) (o'.getD .na) := by
  cases h with
  | some hv => exact hv
  | none => exact ⟨S.free trivial, id⟩

theorem seriesGet_held (hmn : S.rel w m n) (hs : S.val w (.series r o) (.series r' o)) (i : Nat) :
    S.Held w (m.heap.seriesGet r o i) (n.heap.seriesGet r' o i) := by
  rw [Heap.seriesGet_eq, Heap.seriesGet_eq]
  exact S.held_getD (forall₂_getElem? (S.seriesValues hmn hs) i)

theorem current_held (hmn : S.rel w m n) (hv : S.val w v v') :
    S.Held w (m.heap.current v) (n.heap.current v') := by
  cases S.alike hv with
  | series r r' o => exact S.seriesGet_held hmn hv 0
  | _ => exact ⟨hv, id⟩

theorem current_agree (hv : S.val w v v') :
    S.Agree w S.Held (Exec.heap fun h => h.current v) (Exec.heap fun h => h.current v') :=
  Correspondence.agree_heap fun _ _ hmn => S.current_held hmn hv

theorem text?_eq (hmn : S.rel w m n) (hv : S.val w v v') : m.heap.text? v = n.heap.text? v' := by
  have h := S.alike (S.current_held hmn hv).1
  unfold Heap.text?
  generalize m.heap.current v = a, n.heap.current v' = b at h ⊢
  cases h <;> rfl

theorem settles_eq (hmn : S.rel w m n) (hv : S.val w v v') (op : LogicalOp) :
    m.heap.settles op v = n.heap.settles op v' := by
  cases op with
  | and => simp only [Heap.settles, S.truthy_eq hmn hv]
  | or => simp only [Heap.settles, S.truthy_eq hmn hv]
  | nullish =>
    have h := S.alike (S.current_held hmn hv).1
    unfold Heap.settles
    generalize m.heap.current v = a, n.heap.current v' = b at h ⊢
    cases h <;> rfl

theorem unary_val (hmn : S.rel w m n) (hv : S.val w v v') (op : UnaryOp) :
    S.val w (m.heap.unary op v) (n.heap.unary op v') := by
  cases op with
  | not =>
    simp only [Heap.unary, S.truthy_eq hmn hv]
    exact S.free trivial
  | neg =>
    simp only [Heap.unary, S.number_eq hmn hv]
    exact S.free trivial
  | plus =>
    simp only [Heap.unary, S.number_eq hmn hv]
    exact S.free trivial

theorem compare?_eq (hmn : S.rel w m n) (hv : S.val w v v') (hu : S.val w u u') :
    m.heap.compare? v u = n.heap.compare? v' u' := by
  have hnv := S.number_eq hmn hv
  have hnu := S.number_eq hmn hu
  cases S.alike hv <;> cases S.alike hu <;> simp only [Heap.compare?, hnv, hnu]

theorem array_beq (ha : S.val w (.array a) (.array a'))
    (hb : S.val w (.array b) (.array b')) : (a == b) = (a' == b') := by
  rw [Bool.eq_iff_iff, beq_iff_eq, beq_iff_eq]
  exact S.array_eq ha hb

theorem object_beq (ha : S.val w (.object a) (.object a'))
    (hb : S.val w (.object b) (.object b')) : (a == b) = (a' == b') := by
  rw [Bool.eq_iff_iff, beq_iff_eq, beq_iff_eq]
  exact S.object_eq ha hb

theorem looseEq_eq (hmn : S.rel w m n) (hv : S.val w v v') (hu : S.val w u u') :
    m.heap.looseEq v u = n.heap.looseEq v' u' := by
  have hnv := S.number_eq hmn hv
  have hnu := S.number_eq hmn hu
  cases S.alike hv with
  | array a a' =>
    cases S.alike hu with
    | array b b' => exact S.array_beq hv hu
    | _ => simp only [Heap.looseEq, hnv, hnu]
  | object a a' =>
    cases S.alike hu with
    | object b b' => exact S.object_beq hv hu
    | _ => simp only [Heap.looseEq, hnv, hnu]
  | _ => cases S.alike hu <;> simp only [Heap.looseEq, hnv, hnu]

theorem tolerantEq_eq (hmn : S.rel w m n) (hv : S.val w v v') (hu : S.val w u u') :
    m.heap.tolerantEq v u = n.heap.tolerantEq v' u' := by
  have hv := (S.current_held hmn hv).1
  have hu := (S.current_held hmn hu).1
  have hnv := S.number_eq hmn hv
  have hnu := S.number_eq hmn hu
  unfold Heap.tolerantEq
  revert hv hu hnv hnu
  generalize m.heap.current v = a
  generalize n.heap.current v' = a'
  generalize m.heap.current u = b
  generalize n.heap.current u' = b'
  intro hv hu hnv hnu
  cases S.alike hv with
  | array a a' =>
    cases S.alike hu with
    | array b b' => exact S.array_beq hv hu
    | _ => simp only [hnv, hnu]
  | object a a' =>
    cases S.alike hu with
    | object b b' => exact S.object_beq hv hu
    | _ => simp only [hnv, hnu]
  | _ => cases S.alike hu <;> simp only [hnv, hnu]

end Likeness

end BarScript

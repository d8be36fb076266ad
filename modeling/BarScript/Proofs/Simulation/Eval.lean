import BarScript.Proofs.Simulation.Library

/-!
# Runs of trees on corresponding machines

Running one tree on corresponding machines keeps them in correspondence: the
results correspond, or both runs stop with the same error. The induction is on
the tree; loops and calls go by the rounds and the calls that are left. Only
assignments are not looked into here, since the simulation itself says what
they do.
-/

namespace BarScript

open Correspondence Machine List Exec

theorem Heap.position?_zero (h : Heap) : h.position? (.number 0.0) = some 0 := by
  show (if Number.isFinite 0.0 && (0.0 : Float) ≥ 0.0 then some (Number.toIndex 0.0) else none) =
    some 0
  decide +kernel

theorem Heap.bars_na (h : Heap) : h.bars .na = 0 := by
  show (if Number.isFinite Number.nan && Number.nan > 0.0 then Number.toIndex Number.nan else 0) = 0
  decide +kernel

namespace Machine

variable {id : String} {r : Ref} {o i : Nat} {index : Value}

/-- The value that a slot is declared with: of a series, what it shows at the
offset. -/
def initValue (value offset : Value) : Exec Value :=
  match value with
  | .series r o => Exec.heap fun h => h.seriesGet r o (h.bars offset)
  | v => pure v

/-- What declaring a slot does with the slot that is there. -/
def initSlot (slot v : Value) : Exec Value :=
  match slot with
  | .series r o => do
    modifyHeap fun h => h.modifyHistory r fun s => s.setCurrent v
    return .series r o
  | _ => do return .series (← newSeries v) 0

theorem init_eq (slot value offset : Value) :
    init slot value offset = initValue value offset >>= initSlot slot := by
  cases value <;> cases slot <;> rfl

/-- The history that a slot gets when a value is assigned to it. -/
def slotHistory (v : Value) : Exec Ref :=
  match v with
  | .series r 0 => pure r
  | v => do newSeries (← Exec.heap fun h => h.current v)

theorem storeSlot_eq (b : Bucket) (name : String) (v : Value) : storeSlot b name v =
      slotHistory v >>= fun r => modifyContext fun c => c.setSlot b name r := by
  cases v with
  | series r o => cases o <;> rfl
  | _ => rfl

/-- An argument that was handed over before has its history. -/
theorem paramHistory_of_get? {m : Machine} (hr : m.context.params.get? id = some r) :
    paramHistory id m = .ok r m := by
  have hget : Exec.context (fun c => c.params.get? id) m = .ok (some r) m :=
    congrArg (EStateM.Result.ok · m) hr
  exact (bind_ok hget).trans rfl

theorem paramHistory_of_none {m : Machine} (hr : m.context.params.get? id = none) :
    paramHistory id m = .ok m.heap.histories.size
      ⟨(m.heap.newHistory (.new m.context.config.maxHistory)).2,
        { m.context with params := m.context.params.insert id m.heap.histories.size }⟩ := by
  have hget : Exec.context (fun c => c.params.get? id) m = .ok none m :=
    congrArg (EStateM.Result.ok · m) hr
  exact (bind_ok hget).trans rfl

theorem readName_of_lookup? {m : Machine} {env : Env} {name : String} {v : Value}
    (h : m.heap.lookup? env name = some v) : readName env name m = .ok v m := by
  have hread : Exec.heap (fun k => k.lookup? env name) m = .ok (some v) m :=
    congrArg (EStateM.Result.ok · m) h
  exact bind_ok hread

theorem readElement_series {m : Machine} (hi : m.heap.position? index = some i) :
    readElement (.series r o) index m = .ok (m.heap.seriesGet r o i) m := by
  show EStateM.Result.ok _ m = _
  dsimp only
  rw [hi]

theorem writeElement_series {m : Machine} (hi : m.heap.position? index = some i) :
    writeElement (.series r o) index v m = if showsHistory r v then .error .sharedWrite m
      else .ok () { m with
        heap := m.heap.modifyHistory r fun s => setBar s (o + i) (m.heap.current v) } := by
  have hnumber : Exec.heap (fun h => h.number index) m = .ok (m.heap.number index) m := rfl
  have hplace : Exec.heap (fun h => h.position? index) m = .ok (some i) m :=
    congrArg (EStateM.Result.ok · m) hi
  refine (bind_ok hnumber).trans ((bind_ok hplace).trans ?_)
  dsimp only
  by_cases hshows : showsHistory r v = true
  · rw [if_pos hshows, if_pos hshows]
    rfl
  · rw [if_neg hshows, if_neg hshows]
    rfl

theorem map_fst_bindParams (ids : List Ident) (args : List Value) :
    (bindParams ids args).map Prod.fst = ids.map Ident.name := by
  induction ids generalizing args with
  | nil => rfl
  | cons id ids ih =>
    cases args with
    | nil => exact congrArg (id.name :: ·) (ih [])
    | cons v vs => exact congrArg (id.name :: ·) (ih vs)

/-- What parameters are bound to are the arguments, or nothing. -/
theorem snd_of_mem_bindParams (hp : p ∈ bindParams ids args) : p.2 = .na ∨ p.2 ∈ args := by
  induction ids generalizing args with
  | nil => cases hp
  | cons id ids ih =>
    cases args with
    | nil =>
      rcases mem_cons.1 hp with rfl | hp
      · exact .inl rfl
      · exact ih hp
    | cons v vs =>
      rcases mem_cons.1 hp with rfl | hp
      · exact .inr mem_cons_self
      · exact (ih hp).imp_right (mem_cons_of_mem v)

end Machine

/-- The test of a loop. One that is missing holds. -/
def Expr.holds (host : Host) (env : Env) : Option Expr → Exec Bool
  | none => return true
  | some e => do
    let v ← e.eval host env
    Exec.heap fun h => h.truthy v

def ForInit.start (host : Host) (env : Env) : Option ForInit → Exec Unit
  | none => return ()
  | some (.decl ⟨_, declarators⟩) => Declarator.declare host env declarators
  | some (.expr e) => do let _ ← e.eval host env

/-- The rounds of a loop, in the frame of its header. -/
def Stmt.rounds (host : Host) (env : Env) (test update : Option Expr) (body : Stmt) : Exec Flow :=
  loop host.rounds (Expr.holds host env test) (body.exec host env)
    (do let _ ← Expr.evalOpt host env update) host.rounds

theorem Stmt.exec_forLoop (host : Host) (env : Env) (init : Option ForInit)
    (test update : Option Expr) (body : Stmt) :
    (Stmt.forLoop init test update body).exec host env = (do
      let env ← openFrame env
      ForInit.start host env init
      Stmt.rounds host env test update body) := by
  rw [Stmt.exec]
  refine congrArg (openFrame env >>= ·) (funext fun env => ?_)
  match init, test with
  | none, none | none, some _ => rfl
  | some (.decl ⟨_, _⟩), none | some (.decl ⟨_, _⟩), some _ => rfl
  | some (.expr _), none | some (.expr _), some _ =>
    rw [ForInit.start, bind_assoc]
    rfl

/-- Runs the body of a function in the frame of its parameters. -/
def FuncBody.run (host : Host) (env : Env) : FuncBody → Exec Value
  | .expr e => e.eval host env
  | .block stmts => do
    hoist env stmts
    match ← Stmt.execList host env stmts with
    | .next => return .na
    | .ret v => return v
    | .breakLoop => fail (.strayJump "break")
    | .continueLoop => fail (.strayJump "continue")

theorem Machine.apply_eq (host : Host) (f : Func) (env : Env) (args : List Value) :
    apply host f env args = (do
      let r ← alloc fun h => h.newFrame (.ofList (bindParams f.params args))
      f.body.run host (r :: env)) := by
  unfold apply
  cases f.body <;> rfl

namespace Operations

variable {W : Type} (S : Operations W) {w : W} {m n : Machine} {v v' u u' : Value} {ρ ρ' : Env}

/-! ## Reading -/

theorem readName_agree (hρ : S.env w ρ ρ') (name : String) :
    S.Agree w S.val (readName ρ name) (readName ρ' name) := by
  refine (agree_heap (Q := fun w => Option.Rel (S.val w)) fun m n hmn =>
    S.lookup hmn hρ name).bind fun w' _ a b hab => ?_
  cases hab with
  | some hv => exact agree_pure hv
  | none =>
    cases hf : freeName? name with
    | none => exact agree_fail _
    | some v => exact agree_pure (S.free (freeName?_free hf))

theorem contextMember_val (hmn : S.rel w m n) (name : String) :
    S.val w (contextMember m.context name) (contextMember n.context name) := by
  unfold contextMember Context.barIndex
  rw [S.steps hmn]
  split
  · exact S.free trivial
  · exact S.free trivial
  · exact S.free trivial
  · exact S.free trivial
  · exact S.free trivial
  · exact S.free trivial
  · split
    · exact S.free trivial
    · exact S.free trivial

theorem objectGet_held (hmn : S.rel w m n) (hr : S.val w (.object r) (.object r')) (key : String) :
    S.Held w (((m.heap.object r).get? key).getD .na) (((n.heap.object r').get? key).getD .na) :=
  S.held_getD (forall₂_find? (S.objectEntries hmn hr) key)

theorem member_val (hmn : S.rel w m n) (hv : S.val w v v') (property : String) :
    S.val w (m.member v property) (n.member v' property) := by
  have hset := S.settle hmn hv
  unfold member
  generalize m.heap.settle v = a, n.heap.settle v' = b at hset ⊢
  cases S.alike hset with
  | context => exact S.contextMember_val hmn property
  | group ns =>
    cases ns with
    | data => exact S.dataSeries hmn property
    | _ => exact S.free trivial
  | bucket b => exact S.slot hmn b property
  | object r r' => exact (S.objectGet_held hmn hset property).1
  | array r r' =>
    dsimp only
    rw [S.arraySize_eq hset hmn]
    split
    · exact S.free trivial
    · exact S.free trivial
  | str s =>
    dsimp only
    split
    · exact S.free trivial
    · exact S.free trivial
  | _ => exact S.free trivial

theorem readMember_agree (hv : S.val w v v') (property : String) :
    S.Agree w S.val (readMember v property) (readMember v' property) :=
  fun _ _ hmn => .ok (S.refl w) hmn (S.member_val hmn hv property)

theorem displayKey_agree (hv : S.val w v v') :
    S.Agree w same (heap? fun h => h.display? (h.current v))
      (heap? fun h => h.display? (h.current v')) :=
  agree_heap?_eq fun _ _ hmn => S.display?_eq hmn (S.current_held hmn hv).1

theorem readElement_agree (hv : S.val w v v') (hu : S.val w u u') :
    S.Agree w S.val (readElement v u) (readElement v' u') := by
  unfold readElement
  cases S.alike hv with
  | series r r' o =>
    refine agree_heap fun m n hmn => ?_
    rw [S.position?_eq hmn hu]
    cases n.heap.position? u' with
    | none => exact S.free trivial
    | some i => exact (S.seriesGet_held hmn hv i).1
  | array r r' =>
    refine agree_heap fun m n hmn => ?_
    rw [S.position?_eq hmn hu]
    cases n.heap.position? u' with
    | none => exact S.free trivial
    | some i => exact (S.arrayGet_held hv hmn i).1
  | object r r' =>
    refine (S.displayKey_agree hu).bind_same fun w' hw key => ?_
    exact agree_heap fun m n hmn => (S.objectGet_held hmn (S.val_mono hw hv) key).1
  | str s =>
    refine agree_heap fun m n hmn => ?_
    rw [S.position?_eq hmn hu]
    cases (n.heap.position? u').bind fun i => s.toList[i]? with
    | none | some => exact S.free trivial
  | _ => exact agree_pure (S.free trivial)

theorem truthy_agree (hv : S.val w v v') :
    S.Agree w same (Exec.heap fun h => h.truthy v) (Exec.heap fun h => h.truthy v') :=
  agree_heap_eq fun _ _ hmn => S.truthy_eq hmn hv

/-! ## Declaring -/

theorem openFrame_agree (hρ : S.env w ρ ρ') :
    S.Agree w S.env (openFrame ρ) (openFrame ρ') :=
  (S.newFrame hρ .nil (by simp)).bind fun _ _ _ _ henv => agree_pure henv

/-- Computations run for each of a list correspond if each of them does. -/
theorem forM_agree {α : Type} (l : List α) {f g : α → Exec PUnit}
    (h : ∀ a ∈ l, ∀ w', S.le w w' → S.Agree w' same (f a) (g a)) :
    S.Agree w same (l.forM f) (l.forM g) := by
  induction l generalizing w with
  | nil => exact agree_pure rfl
  | cons a l ih =>
    refine (h a mem_cons_self w (S.refl w)).bind fun w' hw _ _ _ => ?_
    exact ih fun b hb w'' hw' => h b (mem_cons_of_mem a hb) w'' (S.trans hw hw')

theorem bindPattern_agree (hρ : S.env w ρ ρ') {target : Pattern} (ht : target.All S.shape)
    (hv : S.val w v v') :
    S.Agree w same (bindPattern ρ target v) (bindPattern ρ' target v') := by
  cases target with
  | ident id => exact S.defineName hρ hv (ht id (by simp [Pattern.boundNames]))
  | object props =>
    refine S.forM_agree props fun p hp w' hw => ?_
    have hname : S.shape.name p.2.name := ht p.2 (mem_map_of_mem hp)
    refine (S.readMember_agree (S.val_mono hw hv) p.1).bind fun w'' hw' a b hab => ?_
    exact S.defineName (S.env_mono (S.trans hw hw') hρ) hab hname
  | array items =>
    refine S.forM_agree items.zipIdx fun p hp w' hw => ?_
    obtain ⟨item, i⟩ := p
    cases item with
    | none => exact agree_pure rfl
    | some id =>
      have hmem : some id ∈ items := (mem_zipIdx' hp).2 ▸ getElem_mem _
      have hname : S.shape.name id.name := ht id (by simpa [Pattern.boundNames] using hmem)
      have hplace : S.val w' (.number i.toFloat) (.number i.toFloat) := S.free trivial
      refine (S.readElement_agree (S.val_mono hw hv) hplace).bind fun w'' hw' a b hab => ?_
      exact S.defineName (S.env_mono (S.trans hw hw') hρ) hab hname

theorem hoist_agree {stmts : List Stmt} (hs : Stmt.ListAll S.shape stmts) (hρ : S.env w ρ ρ') :
    S.Agree w same (hoist ρ stmts) (hoist ρ' stmts) := by
  induction stmts generalizing w with
  | nil => exact agree_pure rfl
  | cons s rest ih =>
    obtain ⟨hs, hrest⟩ := hs
    cases s with
    | func f =>
      unfold hoist
      obtain ⟨-, hname, hf⟩ := hs
      cases hid : f.name with
      | none => exact agree_pure rfl
      | some id =>
        refine (S.defineName hρ (S.func hρ hf) (hname id hid)).bind fun w' hw _ _ _ => ?_
        exact ih hrest (S.env_mono hw hρ)
    | _ => exact ih hrest hρ

theorem slotHistory_agree (hv : S.val w v v') :
    S.Agree w (fun w r r' => S.val w (.series r 0) (.series r' 0)) (slotHistory v)
      (slotHistory v') := by
  have hnew := (S.current_agree hv).bind fun _ _ _ _ hu => S.newSeries hu
  cases S.alike hv with
  | series r r' o =>
    cases o with
    | zero => exact agree_pure hv
    | succ o => exact hnew
  | _ => exact hnew

/-! ## Functions of the context -/

theorem initValue_agree (hv : S.val w v v') (hu : S.val w u u') :
    S.Agree w S.Held (initValue v u) (initValue v' u') := by
  unfold initValue
  cases S.alike hv with
  | series r r' o =>
    refine agree_heap fun m n hmn => ?_
    rw [S.bars_eq hmn hu]
    exact S.seriesGet_held hmn hv _
  | _ => exact agree_pure ⟨hv, id⟩

theorem initSlot_agree (hs : S.val w s s') (hv : S.Held w v v') :
    S.Agree w S.val (initSlot s v) (initSlot s' v') := by
  cases S.alike hs with
  | series r r' o =>
    exact (S.setCurrent hs hv).bind fun w' hw _ _ _ => agree_pure (S.val_mono hw hs)
  | _ => exact (S.newSeries hv).bind fun _ _ _ _ hr => agree_pure hr

theorem init_agree (hs : S.val w s s') (hv : S.val w v v') (hu : S.val w u u') :
    S.Agree w S.val (init s v u) (init s' v' u') := by
  rw [init_eq, init_eq]
  exact (S.initValue_agree hv hu).bind fun w' hw a b hab =>
    S.initSlot_agree (S.val_mono hw hs) hab

theorem param_agree (hv : S.val w v v') (hu : S.val w u u') (id : String) :
    S.Agree w S.val (param v u id) (param v' u' id) := by
  refine (agree_heap_eq fun m n hmn => S.bars_eq hmn hu).bind_same fun w' hw shift => ?_
  have hv := S.val_mono hw hv
  have hkeep : ¬ v.IsSeries → S.Agree w' S.val
      (do let r ← Machine.paramHistory id
          modifyHeap fun h => h.modifyHistory r fun s => s.setCurrent v
          return .series r shift)
      (do let r ← Machine.paramHistory id
          modifyHeap fun h => h.modifyHistory r fun s => s.setCurrent v'
          return .series r shift) := fun hns => by
    refine (S.paramHistory id).bind fun w₁ hw₁ r r' hr => ?_
    refine (S.setCurrent hr ⟨S.val_mono hw₁ hv, hns⟩).bind fun w₂ hw₂ _ _ _ => ?_
    exact agree_pure (S.val_mono hw₂ (S.shifted hr shift))
  cases S.alike hv with
  | series r r' o => exact agree_pure (S.shifted hv _)
  | func | native => exact agree_pure hv
  | _ => exact hkeep fun h => h

mutual

theorem make_agree (t t' : Rounded) {w : W} (h : S.Roundings w t t') :
    S.Agree w S.Held t.make t'.make := by
  match t, t', h with
  | _, _, .value hv => exact agree_pure hv
  | .array l, .array l', .array hl =>
    exact (makeList_agree l l' hl).bind fun _ _ _ _ hvs => S.newArray hvs

theorem makeList_agree (l l' : List Rounded) {w : W} (h : S.RoundingLists w l l') :
    S.Agree w S.Items (Rounded.makeList l) (Rounded.makeList l') := by
  match l, l', h with
  | _, _, .nil => exact agree_pure .nil
  | t :: l, t' :: l', .cons ht hl =>
    refine (make_agree t t' ht).bind fun w₁ hw₁ v v' hv => ?_
    refine (makeList_agree l l' (hl.mono hw₁)).bind fun w₂ hw₂ vs vs' hvs => ?_
    exact agree_pure (.cons (hv.mono hw₂) hvs)

end

theorem precision_agree (hv : S.val w v v') : S.Agree w S.val (precision v) (precision v') := by
  refine (agree_context_eq fun m n hmn => by rw [S.config hmn]).bind_same fun w₁ hw₁ scale => ?_
  refine (agree_heap? (Q := S.Roundings) fun m n hmn => ?_).bind fun w₂ _ t t' ht => ?_
  · exact S.rounded?_rel hmn (S.current_held hmn (S.val_mono hw₁ hv)) scale
  · exact (S.make_agree t t' ht).weaken fun _ _ _ _ h => h.1

/-! ## Calls and loops -/

theorem paramKey_agree (hargs : S.Vals w args args') :
    S.Agree w same (Exec.heap fun h => (args[2]?).bind h.text?)
      (Exec.heap fun h => (args'[2]?).bind h.text?) := by
  refine agree_heap_eq fun m n hmn => ?_
  have h := forall₂_getElem? hargs 2
  generalize args[2]? = o, args'[2]? = o' at h ⊢
  cases h with
  | none => rfl
  | some hv => exact S.text?_eq hmn hv

theorem uncallable_agree (hv : S.val w v v') :
    S.Agree w S.val (do fail (.notCallable (← heap? fun h => h.debug? v)))
      (do fail (.notCallable (← heap? fun h => h.debug? v'))) :=
  (agree_heap?_eq fun _ _ hmn => S.debug?_eq hmn hv).bind_same fun _ _ _ => agree_fail _

theorem callValue_agree {host host' : Host} (hh : S.Hosts w host host') (hv : S.val w v v')
    {args args' : List Value} (hargs : S.Vals w args args') :
    S.Agree w S.val (callValue host v args) (callValue host' v' args') := by
  cases S.alike hv with
  | func f ρ ρ' =>
    obtain ⟨hρ, hf⟩ := S.func_inv hv
    exact hh.call (S.refl w) hf hρ hargs
  | native ns name => exact S.library_agree hargs ns name
  | contextFn f =>
    cases f with
    | init => exact S.init_agree (S.arg_val hargs 0) (S.arg_val hargs 1) (S.arg_val hargs 2)
    | param =>
      refine (S.paramKey_agree hargs).bind_same fun w' hw key => ?_
      have hargs := hargs.mono hw
      cases key with
      | none => exact agree_fail _
      | some id => exact S.param_agree (S.arg_val hargs 0) (S.arg_val hargs 1) id
    | precision => exact S.precision_agree (S.arg_val hargs 0)
  | _ => exact S.uncallable_agree hv

theorem loop_agree {limit : Nat} {test test' : Exec Bool} {body body' : Exec Flow}
    {step step' : Exec Unit} (htest : ∀ w', S.le w w' → S.Agree w' same test test')
    (hbody : ∀ w', S.le w w' → S.Agree w' S.Flows body body')
    (hstep : ∀ w', S.le w w' → S.Agree w' same step step') (left : Nat) :
    S.Agree w S.Flows (loop limit test body step left) (loop limit test' body' step' left) := by
  induction left generalizing w with
  | zero =>
    refine (htest w (S.refl w)).bind_same fun w' _ a => ?_
    cases a with
    | true => exact agree_fail _
    | false => exact agree_pure .next
  | succ left ih =>
    refine (htest w (S.refl w)).bind_same fun w₁ hw₁ a => ?_
    cases a with
    | false => exact agree_pure .next
    | true =>
      refine (hbody w₁ hw₁).bind fun w₂ hw₂ f f' hf => ?_
      have hw₂ := S.trans hw₁ hw₂
      have hon : S.Agree w₂ S.Flows (do step; loop limit test body step left)
          (do step'; loop limit test' body' step' left) := by
        refine (hstep w₂ hw₂).bind fun w₃ hw₃ _ _ _ => ?_
        have hw₃ := S.trans hw₂ hw₃
        exact ih (fun w' hw' => htest w' (S.trans hw₃ hw'))
          (fun w' hw' => hbody w' (S.trans hw₃ hw')) (fun w' hw' => hstep w' (S.trans hw₃ hw'))
      cases hf with
      | next | continueLoop => exact hon
      | ret hv => exact agree_pure (.ret hv)
      | breakLoop => exact agree_pure .next

variable {args args' : List Value}

theorem bindParams_entries (ids : List Ident) (hargs : S.Vals w args args') :
    S.Entries w (bindParams ids args) (bindParams ids args') := by
  induction ids generalizing args args' with
  | nil => exact .nil
  | cons id ids ih =>
    cases hargs with
    | nil => exact .cons ⟨rfl, S.free trivial⟩ (ih .nil)
    | cons hv hrest => exact .cons ⟨rfl, hv⟩ (ih hrest)

theorem mem_bindParams (h : p ∈ bindParams ids args) : ∃ id ∈ ids, id.name = p.1 := by
  have hname : p.1 ∈ ids.map Ident.name := by
    rw [← map_fst_bindParams ids args]
    exact mem_map_of_mem h
  exact mem_map.1 hname

end Operations

namespace Simulation

variable {W : Type} (S : Simulation W) {w : W} {ρ ρ' : Env}

/-! ## Trees -/

section Trees

variable {host host' : Host}

mutual

/-- **Expressions** evaluate to corresponding values. -/
theorem eval_agree (e : Expr) (he : e.All S.shape) {w : W}
    (hh : S.Sites w host host' ρ ρ') : S.Agree w S.val (e.eval host ρ) (e.eval host' ρ') := by
  match e with
  | .number _ | .str _ | .bool _ | .null | .undefined => exact agree_pure (S.free trivial)
  | .ident id => exact S.readName_agree hh.env id.name
  | .this => exact agree_pure hh.receiver
  | .member base property =>
    exact (eval_agree base he.2 hh).bind fun _ _ _ _ hv => S.readMember_agree hv property
  | .index base sub =>
    obtain ⟨-, hb, hs⟩ := he
    refine (eval_agree base hb hh).bind fun w₁ hw₁ v v' hv => ?_
    refine (eval_agree sub hs (hh.mono hw₁)).bind fun w₂ hw₂ u u' hu => ?_
    exact S.readElement_agree (S.val_mono hw₂ hv) hu
  | .call callee args =>
    obtain ⟨-, hc, ha⟩ := he
    refine (eval_agree callee hc hh).bind fun w₁ hw₁ v v' hv => ?_
    refine (evalList_agree args ha (hh.mono hw₁)).bind fun w₂ hw₂ l l' hl => ?_
    exact S.callValue_agree (hh.mono (S.trans hw₁ hw₂)).toHosts (S.val_mono hw₂ hv) hl
  | .unary op arg =>
    refine (eval_agree arg he.2 hh).bind fun w₁ _ v v' hv => ?_
    exact agree_heap fun _ _ hmn => S.unary_val hmn hv op
  | .update op first target =>
    -- the parts of a target are evaluated again when it is written
    refine S.update he.1 hh.toHosts hh.env fun e he' w' hw => ?_
    rcases mem_cons.1 he' with he' | he'
    · rw [he']
      exact eval_agree target he.2 (hh.mono hw)
    · exact parts_agree target he.2 (hh.mono hw) e he'
  | .binary op left right =>
    obtain ⟨-, hl, hr⟩ := he
    refine (eval_agree left hl hh).bind fun w₁ hw₁ v v' hv => ?_
    refine (eval_agree right hr (hh.mono hw₁)).bind fun w₂ hw₂ u u' hu => ?_
    exact agree_heap? fun _ _ hmn => S.binary?_rel hmn op (S.val_mono hw₂ hv) hu
  | .logical op left right =>
    obtain ⟨-, hl, hr⟩ := he
    refine (eval_agree left hl hh).bind fun w₁ hw₁ v v' hv => ?_
    refine (agree_heap_eq fun _ _ hmn => S.settles_eq hmn hv op).bind_same fun w₂ hw₂ a => ?_
    have hw₂ := S.trans hw₁ hw₂
    cases a with
    | true => exact agree_pure (S.val_mono ‹_› hv)
    | false => exact eval_agree right hr (hh.mono hw₂)
  | .conditional test consequent alternate =>
    obtain ⟨-, ht, hc, ha⟩ := he
    refine (eval_agree test ht hh).bind fun w₁ hw₁ v v' hv => ?_
    refine (S.truthy_agree hv).bind_same fun w₂ hw₂ a => ?_
    have hw₂ := S.trans hw₁ hw₂
    cases a with
    | true => exact eval_agree consequent hc (hh.mono hw₂)
    | false => exact eval_agree alternate ha (hh.mono hw₂)
  | .assign op target value =>
    obtain ⟨hshape, ht, hv⟩ := he
    refine S.assign hshape hh.toHosts hh.env fun e he' w' hw => ?_
    have hh' := hh.mono hw
    rcases mem_cons.1 he' with he' | he'
    · rw [he']
      exact eval_agree target ht hh'
    rcases mem_cons.1 he' with he' | he'
    · rw [he']
      exact eval_agree value hv hh'
    rcases mem_append.1 he' with he' | he'
    · exact parts_agree target ht hh' e he'
    · exact parts_agree value hv hh' e he'
  | .array items =>
    exact (evalCurrent_agree items he.2 hh).bind fun _ _ _ _ hl => S.newArray_agree hl
  | .object props =>
    exact (evalFields_agree props he.2 hh).bind fun _ _ _ _ hl => S.newObject hl
  | .func f => exact agree_pure (S.func hh.env he.2)

theorem parts_agree (e : Expr) (he : e.All S.shape) {w : W} (hh : S.Sites w host host' ρ ρ') :
    ∀ e' ∈ e.parts, S.Agree w S.val (e'.eval host ρ) (e'.eval host' ρ') := by
  match e with
  | .member base property =>
    intro e' he'
    rw [mem_singleton.1 he']
    exact eval_agree base he.2 hh
  | .index base sub =>
    intro e' he'
    rcases mem_cons.1 he' with he' | he'
    · rw [he']
      exact eval_agree base he.2.1 hh
    · rw [mem_singleton.1 he']
      exact eval_agree sub he.2.2 hh
  | .call callee args =>
    intro e' he'
    rcases mem_cons.1 he' with he' | he'
    · rw [he']
      exact eval_agree callee he.2.1 hh
    · exact members_agree args he.2.2 hh e' he'
  | .number _ | .str _ | .bool _ | .null | .undefined | .ident _ | .this | .unary _ _
  | .update _ _ _ | .binary _ _ _ | .logical _ _ _ | .conditional _ _ _ | .assign _ _ _
  | .array _ | .object _ | .func _ => exact fun _ h => nomatch h

theorem members_agree (es : List Expr) (he : Expr.ListAll S.shape es) {w : W}
    (hh : S.Sites w host host' ρ ρ') :
    ∀ e' ∈ es, S.Agree w S.val (e'.eval host ρ) (e'.eval host' ρ') := by
  match es with
  | [] => exact fun _ h => nomatch h
  | e :: rest =>
    intro e' he'
    rcases mem_cons.1 he' with he' | he'
    · rw [he']
      exact eval_agree e he.1 hh
    · exact members_agree rest he.2 hh e' he'

theorem evalList_agree (es : List Expr) (he : Expr.ListAll S.shape es) {w : W}
    (hh : S.Sites w host host' ρ ρ') :
    S.Agree w S.Vals (Expr.evalList host ρ es) (Expr.evalList host' ρ' es) := by
  match es with
  | [] => exact agree_pure .nil
  | e :: rest =>
    refine (eval_agree e he.1 hh).bind fun w₁ hw₁ v v' hv => ?_
    refine (evalList_agree rest he.2 (hh.mono hw₁)).bind
      fun w₂ hw₂ l l' hl => ?_
    exact agree_pure (.cons (S.val_mono hw₂ hv) hl)

theorem evalCurrent_agree (es : List Expr) (he : Expr.ListAll S.shape es) {w : W}
    (hh : S.Sites w host host' ρ ρ') :
    S.Agree w S.Items (Expr.evalCurrent host ρ es) (Expr.evalCurrent host' ρ' es) := by
  match es with
  | [] => exact agree_pure .nil
  | e :: rest =>
    refine (eval_agree e he.1 hh).bind fun w₁ hw₁ v v' hv => ?_
    refine (S.current_agree hv).bind fun w₂ hw₂ u u' hu => ?_
    have hw₂ := S.trans hw₁ hw₂
    refine (evalCurrent_agree rest he.2 (hh.mono hw₂)).bind fun w₃ hw₃ l l' hl => ?_
    exact agree_pure (.cons (hu.mono hw₃) hl)

theorem evalFields_agree (props : List (String × Expr)) (he : Expr.PropAll S.shape props) {w : W}
    (hh : S.Sites w host host' ρ ρ') :
    S.Agree w S.Fields (Expr.evalFields host ρ props) (Expr.evalFields host' ρ' props) := by
  match props with
  | [] => exact agree_pure .nil
  | (k, e) :: rest =>
    refine (eval_agree e he.1 hh).bind fun w₁ hw₁ v v' hv => ?_
    refine (S.current_agree hv).bind fun w₂ hw₂ u u' hu => ?_
    have hw₂ := S.trans hw₁ hw₂
    refine (evalFields_agree rest he.2 (hh.mono hw₂)).bind fun w₃ hw₃ l l' hl => ?_
    exact agree_pure (.cons ⟨rfl, hu.mono hw₃⟩ hl)

theorem evalOpt_agree (e? : Option Expr) (he : Expr.OptAll S.shape e?) {w : W}
    (hh : S.Sites w host host' ρ ρ') :
    S.Agree w S.val (Expr.evalOpt host ρ e?) (Expr.evalOpt host' ρ' e?) := by
  match e? with
  | none => exact agree_pure (S.free trivial)
  | some e => exact eval_agree e he hh

end

theorem declare_agree (ds : List Declarator) (hd : Declarator.ListAll S.shape ds) {w : W}
    (hh : S.Sites w host host' ρ ρ') :
    S.Agree w same (Declarator.declare host ρ ds) (Declarator.declare host' ρ' ds) := by
  induction ds generalizing w with
  | nil => exact agree_pure rfl
  | cons d rest ih =>
    obtain ⟨target, init, pos⟩ := d
    obtain ⟨ht, hi, hrest⟩ := hd
    refine (S.evalOpt_agree init hi hh).bind fun w₁ hw₁ v v' hv => ?_
    refine (S.bindPattern_agree (hh.mono hw₁).env ht hv).bind fun w₂ hw₂ _ _ _ => ?_
    have hw₂ := S.trans hw₁ hw₂
    exact ih hrest (hh.mono hw₂)

theorem holds_agree (test : Option Expr) (ht : Expr.OptAll S.shape test)
    (hh : S.Sites w host host' ρ ρ') :
    S.Agree w same (Expr.holds host ρ test) (Expr.holds host' ρ' test) := by
  cases test with
  | none => exact agree_pure rfl
  | some e => exact (S.eval_agree e ht hh).bind fun _ _ _ _ hv => S.truthy_agree hv

theorem start_agree (init : Option ForInit) (hi : ForInit.OptAll S.shape init)
    (hh : S.Sites w host host' ρ ρ') :
    S.Agree w same (ForInit.start host ρ init) (ForInit.start host' ρ' init) := by
  match init with
  | none => exact agree_pure rfl
  | some (.decl ⟨_, ds⟩) => exact S.declare_agree ds hi.2 hh
  | some (.expr e) => exact (S.eval_agree e hi hh).bind fun _ _ _ _ _ => agree_pure rfl

mutual

/-- **Statements** end in the same way. -/
theorem exec_agree (s : Stmt) (hs : s.All S.shape) {ρ ρ' : Env} {w : W}
    (hh : S.Sites w host host' ρ ρ') :
    S.Agree w S.Flows (s.exec host ρ) (s.exec host' ρ') := by
  match s with
  | .decl ⟨_, ds⟩ =>
    exact (S.declare_agree ds hs.2 hh).bind fun _ _ _ _ _ => agree_pure .next
  | .expr e => exact (S.eval_agree e hs hh).bind fun _ _ _ _ _ => agree_pure .next
  | .branch test consequent none =>
    obtain ⟨ht, hc, -⟩ := hs
    refine (S.eval_agree test ht hh).bind fun w₁ hw₁ v v' hv => ?_
    refine (S.truthy_agree hv).bind_same fun w₂ hw₂ a => ?_
    have hw₂ := S.trans hw₁ hw₂
    cases a with
    | true => exact exec_agree consequent hc (hh.mono hw₂)
    | false => exact agree_pure .next
  | .branch test consequent (some alternate) =>
    obtain ⟨ht, hc, ha⟩ := hs
    refine (S.eval_agree test ht hh).bind fun w₁ hw₁ v v' hv => ?_
    refine (S.truthy_agree hv).bind_same fun w₂ hw₂ a => ?_
    have hw₂ := S.trans hw₁ hw₂
    cases a with
    | true => exact exec_agree consequent hc (hh.mono hw₂)
    | false => exact exec_agree alternate ha (hh.mono hw₂)
  | .forLoop init test update body =>
    obtain ⟨hi, ht, hu, hb⟩ := hs
    rw [Stmt.exec_forLoop, Stmt.exec_forLoop]
    refine (S.openFrame_agree hh.env).bind fun w₁ hw₁ ρ₁ ρ₁' hρ₁ => ?_
    have hh₁ : S.Sites w₁ host host' ρ₁ ρ₁' := ⟨hh.toHosts.mono hw₁, hρ₁⟩
    refine (S.start_agree init hi hh₁).bind fun w₂ hw₂ _ _ _ => ?_
    have hh₂ := hh₁.mono hw₂
    unfold Stmt.rounds
    rw [← hh.rounds]
    refine S.loop_agree (fun w₃ hw₃ => ?_) (fun w₃ hw₃ => ?_) (fun w₃ hw₃ => ?_) _
    · exact S.holds_agree test ht (hh₂.mono hw₃)
    · exact exec_agree body hb (hh₂.mono hw₃)
    · exact (S.evalOpt_agree update hu (hh₂.mono hw₃)).bind
        fun _ _ _ _ _ => agree_pure rfl
  | .whileLoop test body =>
    obtain ⟨ht, hb⟩ := hs
    show S.Agree w S.Flows (loop host.rounds _ (body.exec host ρ) _ host.rounds)
      (loop host'.rounds _ (body.exec host' ρ') _ host'.rounds)
    rw [← hh.rounds]
    refine S.loop_agree (fun w₁ hw₁ => ?_) (fun w₁ hw₁ => ?_) (fun _ _ => agree_pure rfl) _
    · exact S.holds_agree (some test) ht (hh.mono hw₁)
    · exact exec_agree body hb (hh.mono hw₁)
  | .block stmts =>
    refine (S.openFrame_agree hh.env).bind fun w₁ hw₁ ρ₁ ρ₁' hρ₁ => ?_
    have hh₁ : S.Sites w₁ host host' ρ₁ ρ₁' := ⟨hh.toHosts.mono hw₁, hρ₁⟩
    refine (S.hoist_agree hs hρ₁).bind fun w₂ hw₂ _ _ _ => ?_
    exact execList_agree stmts hs (hh₁.mono hw₂)
  | .ret arg =>
    exact (S.evalOpt_agree arg hs hh).bind fun _ _ _ _ hv => agree_pure (.ret hv)
  | .breakLoop => exact agree_pure .breakLoop
  | .continueLoop => exact agree_pure .continueLoop
  | .func _ => exact agree_pure .next
  | .empty => exact agree_pure .next

theorem execList_agree (stmts : List Stmt) (hs : Stmt.ListAll S.shape stmts) {ρ ρ' : Env} {w : W}
    (hh : S.Sites w host host' ρ ρ') :
    S.Agree w S.Flows (Stmt.execList host ρ stmts) (Stmt.execList host' ρ' stmts) := by
  match stmts with
  | [] => exact agree_pure .next
  | s :: rest =>
    refine (exec_agree s hs.1 hh).bind fun w₁ hw₁ f f' hf => ?_
    cases hf with
    | next => exact execList_agree rest hs.2 (hh.mono hw₁)
    | ret hv => exact agree_pure (.ret hv)
    | breakLoop => exact agree_pure .breakLoop
    | continueLoop => exact agree_pure .continueLoop

end

end Trees

variable {args args' : List Value} {receiver receiver' : Value}

/-! ## Functions and whole scripts -/

/-- **Bodies** of functions, run in corresponding frames. -/
theorem body_agree {host host' : Host} (hh : S.Sites w host host' ρ ρ')
    {body : FuncBody} (hbody : body.All S.shape) :
    S.Agree w S.val (body.run host ρ) (body.run host' ρ') := by
  cases body with
  | expr e => exact S.eval_agree e hbody hh
  | block stmts =>
    refine (S.hoist_agree hbody hh.env).bind fun w₁ hw₁ _ _ _ => ?_
    refine (S.execList_agree stmts hbody (hh.mono hw₁)).bind
      fun w₂ _ g g' hg => ?_
    cases hg with
    | next => exact agree_pure (S.free trivial)
    | ret hv => exact agree_pure hv
    | breakLoop | continueLoop => exact agree_fail _

/-- **Functions** called with corresponding arguments give corresponding
values. -/
theorem apply_agree (hh : S.Hosts w host host') {f : Func} (hf : f.All S.shape)
    (hρ : S.env w ρ ρ') (hargs : S.Vals w args args') :
    S.Agree w S.val (apply host f ρ args) (apply host' f ρ' args') := by
  obtain ⟨name, params, body, style, pos⟩ := f
  obtain ⟨hparams, hbody⟩ := hf
  have hnames : ∀ p ∈ bindParams params args, S.shape.name p.1 := fun p hp => by
    obtain ⟨id, hid, hname⟩ := Operations.mem_bindParams hp
    exact hname ▸ hparams id hid
  rw [apply_eq, apply_eq]
  refine (S.newFrame hρ (S.bindParams_entries params hargs) hnames).bind fun w₁ hw₁ r r' hr => ?_
  exact S.body_agree ⟨hh.mono hw₁, hr⟩ hbody

/-- Calls correspond however many may still be opened. -/
theorem callWithin_hosts (hr : S.val w receiver receiver') (rounds limit left : Nat) :
    S.Hosts w ⟨receiver, rounds, callWithin receiver rounds limit left⟩
      ⟨receiver', rounds, callWithin receiver' rounds limit left⟩ := by
  induction left generalizing w with
  | zero => exact ⟨rfl, hr, fun {_} _ {_ _ _ _ _} _ _ _ => agree_fail _⟩
  | succ left ih =>
    exact ⟨rfl, hr, fun {_} hw {_ _ _ _ _} hf hρ hargs =>
      S.apply_agree (ih (S.val_mono hw hr)) hf hρ hargs⟩

/-- **Whole scripts**: one bar of a script, run with corresponding receivers. -/
theorem run_agree {p : Program} (hp : p.root.All S.shape) (hr : S.val w receiver receiver')
    (hroot : ∀ w', S.le w w' → S.Steady w' (fun w r r' => S.env w [r] [r'])
      (alloc fun h => h.newFrame .empty)) :
    S.Agree w S.val (run receiver p) (run receiver' p) := by
  refine (agree_context_eq fun m n hmn => S.config hmn).bind_same fun w₁ hw₁ c => ?_
  refine (hroot w₁ hw₁).bind fun w₂ hw₂ r r' hρ => ?_
  have hr₂ := S.val_mono (S.trans hw₁ hw₂) hr
  exact S.apply_agree (S.callWithin_hosts hr₂ _ _ _) hp hρ (.cons (S.free trivial) .nil)

end Simulation

end BarScript

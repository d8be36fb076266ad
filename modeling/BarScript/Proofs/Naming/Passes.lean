import BarScript.Compile.Artifact
import BarScript.Proofs.Naming.Slots

/-!
# Slotting computes the relation

`Logs` follows a computation from the scopes that are open before it to those that are
open after it, and collects what it hands out. A step that hands something out takes
the next number or key, so what is collected is numbered in order. Beside it stands the
same computation with a policy that refuses nothing: the two do the same until the first
one refuses a construct. The induction over the pass then says what slotting gives, for
which reasons it fails, and that its policy matters to what is refused alone.
-/

namespace BarScript

open Slotted List

def CompileError.isRefusal : CompileError → Bool
  | .unsupported _ _ => true
  | _ => false

/-- The same options, but nothing is refused. -/
def Options.lax (options : Options) : Options :=
  { options with unsupported := .passThrough }

/-- The same setting, but nothing is refused. -/
def Slotted.Setting.lax (c : Setting) : Setting :=
  { c with options := c.options.lax }

section Beside

variable {α β : Type} {E : CompileError → Prop} {x y : Except CompileError α}
  {f g : α → Except CompileError β} {Q : α → Prop} {P : β → Prop}

/-- An outcome beside that of a computation that refuses nothing. If there is a result it
satisfies `Q`, and the other computation gives the same; if there is none that is for one of
the reasons `E`, and the other computation fails as well unless a construct is refused. -/
def Beside (E : CompileError → Prop) (x y : Except CompileError α) (Q : α → Prop) : Prop :=
  match x with
  | .ok a => y = .ok a ∧ Q a
  | .error e => E e ∧ (e.isRefusal = true ∨ y = .error e)

theorem Beside.of_eq_ok (h : Beside E x y Q) (hx : x = .ok a) : Q a := by
  subst hx
  exact h.2

theorem Beside.of_eq_error (h : Beside E x y Q) (hx : x = .error e) :
    E e ∧ (e.isRefusal = true ∨ y = .error e) := by
  subst hx
  exact h

theorem Beside.bind (hx : Beside E x y Q) (hf : ∀ a, Q a → Beside E (f a) (g a) P) :
    Beside E (x >>= f) (y >>= g) P := by
  cases x with
  | error e =>
    obtain ⟨he, hy⟩ := hx
    refine ⟨he, hy.imp_right fun hy => ?_⟩
    rw [hy]
    rfl
  | ok a =>
    obtain ⟨rfl, hQ⟩ := hx
    exact hf a hQ

theorem Beside.mono (hx : Beside E x y Q) (h : ∀ a, Q a → Q' a) : Beside E x y Q' := by
  cases x with
  | error e => exact hx
  | ok a => exact ⟨hx.1, h a hx.2⟩

end Beside

namespace Naming

def callKeyAt (n : Nat) : String := "_ta" ++ Nat.repr n

def paramKeyAt (n : Nat) : String := "p" ++ Nat.repr n

/-- Each scope is numbered after those of its kind that were entered before it. -/
def Numbered (before : List ScopeKind) : List (ScopeKind × Nat) → Prop
  | [] => True
  | (kind, n) :: rest => n = before.count kind + 1 ∧ Numbered (kind :: before) rest

theorem Numbered.append (h : Numbered before l)
    (h' : Numbered ((l.map Prod.fst).reverse ++ before) l') :
    Numbered before (l ++ l') := by
  induction l generalizing before with
  | nil => exact h'
  | cons entry rest ih =>
    refine ⟨h.1, ih h.2 ?_⟩
    simpa using h'

/-- Scopes that are numbered so differ from each other. -/
theorem Numbered.nodup (h : Numbered before l) :
    l.Nodup ∧ ∀ entry ∈ l, before.count entry.1 < entry.2 := by
  induction l generalizing before with
  | nil => exact ⟨nodup_nil, fun _ h => by cases h⟩
  | cons entry rest ih =>
    obtain ⟨hn, hrest⟩ := h
    obtain ⟨hnodup, hlater⟩ := ih hrest
    have hfirst : before.count entry.1 < entry.2 := hn ▸ Nat.lt_succ_self _
    refine ⟨nodup_cons.2 ⟨fun hmem => ?_, hnodup⟩, forall_mem_cons.2 ⟨hfirst, ?_⟩⟩
    · -- a later scope of the kind has a larger number
      have hlt := hlater entry hmem
      rw [count_cons_self, hn] at hlt
      exact Nat.lt_irrefl _ hlt
    · intro later hmem
      exact Nat.lt_of_le_of_lt count_le_count_cons (hlater later hmem)

/-- A log is what is handed out between two states. -/
structure Hands (p p' : Progress) (l : Log) : Prop where
  scopes : Numbered p.scopes.entered l.scopes
  entered : p'.scopes.entered = (l.scopes.map Prod.fst).reverse ++ p.scopes.entered
  calls : l.calls = (List.range' p.scopes.callIds l.calls.length).map callKeyAt
  callIds : p'.scopes.callIds = p.scopes.callIds + l.calls.length
  params : l.params = (List.range' p.scopes.paramIds l.params.length).map paramKeyAt
  paramIds : p'.scopes.paramIds = p.scopes.paramIds + l.params.length
  raw : p'.passedThrough = p.passedThrough + l.raw

theorem Hands.none {p p' : Progress} (hs : p'.scopes.entered = p.scopes.entered)
    (hc : p'.scopes.callIds = p.scopes.callIds) (hp : p'.scopes.paramIds = p.scopes.paramIds)
    (hr : p'.passedThrough = p.passedThrough) : Hands p p' {} :=
  ⟨trivial, hs, rfl, hc, rfl, hp, hr⟩

theorem Hands.trans (h : Hands p p' l) (h' : Hands p' p'' l') : Hands p p'' (l ++ l') := by
  rw [Log.append_eq]
  refine ⟨h.scopes.append (h.entered ▸ h'.scopes), ?_, ?_, ?_, ?_, ?_, ?_⟩
  · rw [h'.entered, h.entered]
    simp
  · have hcalls := h'.calls
    rw [h.callIds] at hcalls
    rw [length_append, range'_append_1.symm, map_append, ← h.calls, ← hcalls]
  · rw [h'.callIds, h.callIds, length_append, Nat.add_assoc]
  · have hparams := h'.params
    rw [h.paramIds] at hparams
    rw [length_append, range'_append_1.symm, map_append, ← h.params, ← hparams]
  · rw [h'.paramIds, h.paramIds, length_append, Nat.add_assoc]
  · rw [h'.raw, h.raw, Nat.add_assoc]

/-- Scopes that have the frames `F` open, and otherwise know the names that `s` knows. -/
structure At (s : Scopes) (F : List Frame) (t : Scopes) : Prop where
  frames : t.frames = F
  contextNames : t.contextNames = s.contextNames
  root? : t.root? = s.root?
  functions : t.functions = s.functions

section Scopes

variable {s t : Scopes} {F : List Frame}

theorem At.resolve? (h : At s F t) (name : String) : t.resolve? name = lookIn s F name := by
  unfold lookIn Scopes.resolve? Scopes.isRoot
  rw [h.frames, h.contextNames, h.root?, h.functions]

theorem At.namespaceOf (h : At s F t) (callee : Expr) :
    namespaceOf c t callee = namespaceOf c { s with frames := F } callee := by
  unfold Slotted.namespaceOf
  split
  · rw [h.resolve?]
    rfl
  · rfl
  · rfl

theorem At.reframe (h : At s F t) (F' : List Frame) : At s F' { t with frames := F' } :=
  ⟨rfl, h.contextNames, h.root?, h.functions⟩

theorem mapInner_eq (s : Scopes) (g : Frame → Frame) :
    s.mapInner g = { s with frames := inner g s.frames } := by
  obtain ⟨frames⟩ := s
  cases frames <;> rfl

theorem inner_ne_nil (h : F ≠ []) : inner g F ≠ [] := by
  cases F with
  | nil => exact absurd rfl h
  | cons f rest => exact cons_ne_nil _ _

theorem bindAll_eq (ids : List Ident) (s : Scopes) (h : s.frames ≠ []) :
    ids.foldl (fun s id => s.bind id.name) s = { s with frames := handTo s.frames ids } := by
  induction ids generalizing s with
  | nil => rfl
  | cons id rest ih =>
    have hbind : s.bind id.name =
        { s with
          frames := inner (fun f => { f with bound := f.bound.insert id.name }) s.frames } := by
      unfold Scopes.bind
      split
      · rename_i hnil
        exact absurd hnil h
      · exact mapInner_eq s _
    rw [foldl_cons, hbind, ih _ (inner_ne_nil h)]
    rfl

theorem addLoopVars_eq (ids : List Ident) (s : Scopes) :
    ids.foldl (fun s id => s.addLoopVar id.name) s = { s with frames := countIn s.frames ids } := by
  induction ids generalizing s with
  | nil => rfl
  | cons id rest ih =>
    rw [foldl_cons, Scopes.addLoopVar, mapInner_eq, ih]
    rfl

theorem declare_eq (s : Scopes) (name : String) (bucket : Bucket) :
    s.declare name bucket = (slotIn s.frames name bucket,
      { s with
        frames := declareIn s.frames (slotIn s.frames name bucket)
        bindings := s.bindings + 1 }) := by
  obtain ⟨frames⟩ := s
  cases frames <;> rfl

/-- Only the innermost of the open scopes has changed. -/
structure Within (F F' : List Frame) : Prop where
  ne_nil : F' ≠ []
  tail : F'.tail = F.tail

theorem Within.refl (h : F ≠ []) : Within F F := ⟨h, rfl⟩

theorem Within.trans (h : Within F F') (h' : Within F' F'') : Within F F'' :=
  ⟨h'.ne_nil, h'.tail.trans h.tail⟩

theorem within_inner (h : F ≠ []) (g : Frame → Frame) : Within F (inner g F) := by
  refine ⟨inner_ne_nil h, ?_⟩
  cases F <;> rfl

theorem within_foldl (h : F ≠ []) (g : Ident → Frame → Frame) (ids : List Ident) :
    Within F (ids.foldl (fun F id => inner (g id) F) F) := by
  induction ids generalizing F with
  | nil => exact .refl h
  | cons id rest ih => exact (within_inner h (g id)).trans (ih (inner_ne_nil h))

theorem within_handTo (h : F ≠ []) (ids : List Ident) : Within F (handTo F ids) :=
  within_foldl h _ ids

theorem within_countIn (h : F ≠ []) (ids : List Ident) : Within F (countIn F ids) :=
  within_foldl h _ ids

theorem within_declareIn (h : F ≠ []) (b : Binding) : Within F (declareIn F b) :=
  within_inner h _

end Scopes

/-! ## Computations -/

section Logs

variable {α β : Type} {s : Scopes} {c : Setting} {E : CompileError → Prop} {F : List Frame}
  {x y : Pass α} {f g : α → Pass β} {h : α → β}
  {Q : α → List Frame → Log → Prop} {P : β → List Frame → Log → Prop} {R : α → Log → Prop}

variable (s c E) in
/-- A computation from the open scopes `F`, beside one that refuses nothing. What it gives
satisfies `Q` with the scopes that are open afterwards and with what was handed out; under
the strict policy nothing is kept as it is. -/
def Logs (F : List Frame) (x y : Pass α) (Q : α → List Frame → Log → Prop) : Prop :=
  ∀ p, At s F p.scopes → Beside E (x p) (y p) fun (a, p') => ∃ F' l,
    Q a F' l ∧ At s F' p'.scopes ∧ Hands p p' l ∧ (c.options.unsupported = .strict → l.raw = 0)

variable (s c E) in
/-- A computation that leaves the open scopes as they are. -/
abbrev Reads (F : List Frame) (x y : Pass α) (R : α → Log → Prop) : Prop :=
  Logs s c E F x y fun a F' l => F = F' ∧ R a l

/-- A step that does not fail and keeps nothing as it is. -/
theorem logs_step (hx : ∀ p, At s F p.scopes → ∃ a p' F' l, x p = .ok (a, p') ∧ Q a F' l ∧
    At s F' p'.scopes ∧ Hands p p' l ∧ l.raw = 0) : Logs s c E F x x Q := by
  intro p hp
  obtain ⟨a, p', F', l, hx, hQ, hp', hl, hraw⟩ := hx p hp
  rw [hx]
  exact ⟨rfl, F', l, hQ, hp', hl, fun _ => hraw⟩

theorem logs_pure (h : Q a F {}) : Logs s c E F (pure a) (pure a) Q :=
  logs_step fun p hp => ⟨a, p, F, {}, rfl, h, hp, .none rfl rfl rfl rfl, rfl⟩

theorem reads_pure (h : R a {}) : Reads s c E F (pure a) (pure a) R :=
  logs_pure ⟨rfl, h⟩

theorem logs_throw (he : E e) : Logs s c E F (throw e : Pass α) (throw e : Pass α) Q :=
  fun _ _ => show _ ∧ _ from ⟨he, .inr rfl⟩

/-- **One computation after another**: the logs follow each other. -/
theorem Logs.bind (hx : Logs s c E F x y Q)
    (hf : ∀ a F' l, Q a F' l → Logs s c E F' (f a) (g a) fun b F'' l' => P b F'' (l ++ l')) :
    Logs s c E F (x >>= f) (y >>= g) P := by
  intro p hp
  refine (hx p hp).bind ?_
  rintro ⟨a, p'⟩ ⟨F', l, hQ, hp', hl, hraw⟩
  refine (hf a F' l hQ p' hp').mono ?_
  rintro ⟨b, p''⟩ ⟨F'', l', hP, hp'', hl', hraw'⟩
  exact ⟨F'', l ++ l', hP, hp'', hl.trans hl', fun hc =>
    Nat.add_eq_zero_iff.2 ⟨hraw hc, hraw' hc⟩⟩

theorem Logs.mono (hx : Logs s c E F x y Q)
    (h : ∀ a F' l, Q a F' l → Q' a F' l) : Logs s c E F x y Q' := by
  intro p hp
  refine (hx p hp).mono ?_
  rintro ⟨a, p'⟩ ⟨F', l, hQ, hrest⟩
  exact ⟨F', l, h a F' l hQ, hrest⟩

theorem Logs.ret (hx : Logs s c E F x y Q) (hg : ∀ a F' l, Q a F' l → P (h a) F' l) :
    Logs s c E F (x >>= fun a => pure (h a)) (y >>= fun a => pure (h a)) P := by
  refine hx.bind fun a F' l hQ => logs_pure ?_
  rw [Log.append_nil]
  exact hg a F' l hQ

theorem Logs.map (hx : Logs s c E F x y Q) (hg : ∀ a F' l, Q a F' l → P (h a) F' l) :
    Logs s c E F (h <$> x) (h <$> y) P := by
  rw [map_eq_pure_bind, map_eq_pure_bind]
  exact hx.ret hg

/-- After a computation that leaves the open scopes as they are. -/
theorem Reads.bind (hx : Reads s c E F x y R)
    (hf : ∀ a l, R a l → Logs s c E F (f a) (g a) fun b F' l' => P b F' (l ++ l')) :
    Logs s c E F (x >>= f) (y >>= g) P := by
  refine Logs.bind hx ?_
  rintro a _ l ⟨rfl, hR⟩
  exact hf a l hR

theorem Reads.ret (hx : Reads s c E F x y R) (hg : ∀ a l, R a l → P (h a) F l) :
    Logs s c E F (x >>= fun a => pure (h a)) (y >>= fun a => pure (h a)) P := by
  refine Logs.ret hx ?_
  rintro a _ l ⟨rfl, hR⟩
  exact hg a l hR

theorem Reads.mono (hx : Reads s c E F x y R) (h : ∀ a l, R a l → R' a l) : Reads s c E F x y R' :=
  Logs.mono hx fun a _ l hR => ⟨hR.1, h a l hR.2⟩

theorem Logs.quiet {Q : α → List Frame → Prop} (hx : Logs s c E F x y fun a F' l => l = {} ∧ Q a F')
    (hf : ∀ a F', Q a F' → Logs s c E F' (f a) (g a) P) : Logs s c E F (x >>= f) (y >>= g) P := by
  refine hx.bind ?_
  rintro a F' _ ⟨rfl, hQ⟩
  simp only [Log.nil_append]
  exact hf a F' hQ

theorem Reads.quiet {Q : α → Prop} (hx : Reads s c E F x y fun a l => l = {} ∧ Q a)
    (hf : ∀ a, Q a → Logs s c E F (f a) (g a) P) : Logs s c E F (x >>= f) (y >>= g) P := by
  refine Logs.bind hx ?_
  rintro a _ _ ⟨rfl, rfl, hQ⟩
  simp only [Log.nil_append]
  exact hf a hQ

theorem logs_get {f g : Progress → Pass β} (h : ∀ p, At s F p.scopes → Logs s c E F (f p) (g p) P) :
    Logs s c E F (get >>= f) (get >>= g) P :=
  fun p hp => h p hp p hp

theorem logs_count {k : Progress → Progress} {f g : Unit → Pass β}
    (h : Logs s c E F (f ()) (g ()) P)
    (hk : ∀ p, (k p).scopes = p.scopes ∧ (k p).passedThrough = p.passedThrough) :
    Logs s c E F (modify k >>= f) (modify k >>= g) P := by
  refine Logs.quiet (Q := fun _ F' => F = F') (logs_step fun p hp => ?_) fun _ _ hF => hF ▸ h
  obtain ⟨hscopes, hraw⟩ := hk p
  exact ⟨(), k p, F, {}, rfl, ⟨rfl, rfl⟩, hscopes.symm ▸ hp,
    .none (by rw [hscopes]) (by rw [hscopes]) (by rw [hscopes]) hraw, rfl⟩

theorem logs_note (hk : ∀ t : Scopes, t.frames = F → k t = { t with frames := F' }) :
    Logs s c E F (note k) (note k) fun _ F'' l => l = {} ∧ F'' = F' := by
  refine logs_step fun p hp => ?_
  have hkp := hk _ hp.frames
  refine ⟨(), { p with scopes := k p.scopes }, F', {}, rfl, ⟨rfl, rfl⟩, ?_, ?_⟩
  · rw [hkp]
    exact hp.reframe F'
  · refine ⟨.none ?_ ?_ ?_ rfl, rfl⟩ <;>
      · dsimp only
        rw [hkp]

theorem logs_enter (kind : ScopeKind) : Logs s c E F (enter kind) (enter kind) fun _ F' l =>
    ∃ n, F' = enterIn kind n F ∧ l = { scopes := [(kind, n)] } := by
  refine logs_step fun p hp => ?_
  refine ⟨(), _, enterIn kind (p.scopes.entered.count kind + 1) F, _, rfl, ⟨_, rfl, rfl⟩, ?_, ?_⟩
  · exact ⟨congrArg (_ :: ·) hp.frames, hp.contextNames, hp.root?, hp.functions⟩
  · exact ⟨⟨⟨rfl, trivial⟩, rfl, rfl, rfl, rfl, rfl, rfl⟩, rfl⟩

theorem logs_leave : Logs s c E F leave leave fun _ F' l => l = {} ∧ F' = F.tail :=
  logs_note fun t ht => by rw [← ht]; rfl

/-- A computation inside of a scope, which is left after it. -/
theorem Logs.leaving (hx : Logs s c E F x y Q) (kind : ScopeKind) (n : Nat) (F₀ : List Frame)
    (hg : ∀ a F' l, Q a F' l → Within (enterIn kind n F₀) F' ∧ P (h a) F₀ l) :
    Logs s c E F (x >>= fun a => leave >>= fun _ => pure (h a))
      (y >>= fun a => leave >>= fun _ => pure (h a)) P := by
  refine hx.bind fun a F' l hQ => ?_
  obtain ⟨hw, hP⟩ := hg a F' l hQ
  refine logs_leave.ret ?_
  rintro _ _ _ ⟨rfl, rfl⟩
  rw [hw.tail, Log.append_nil]
  exact hP

theorem logs_bindAll (hF : F ≠ []) (ids : List Ident) :
    Logs s c E F (bindAll ids) (bindAll ids) fun _ F' l => l = {} ∧ F' = handTo F ids := by
  refine logs_note fun t ht => ?_
  subst ht
  exact bindAll_eq ids t hF

theorem logs_declared (kind : DeclKind) (name : String) (init : Expr) :
    Logs s c E F (declared c kind name init) (declared c.lax kind name init) fun stmt F' l =>
      l = {} ∧ stmt = c.declare (slotIn F name kind.bucket) init ∧
        F' = declareIn F (slotIn F name kind.bucket) := by
  refine logs_step fun p hp => ?_
  have hrun : declared c kind name init p =
      .ok (c.declare (p.scopes.declare name kind.bucket).1 init,
        { p with
          scopes := (p.scopes.declare name kind.bucket).2
          declarations := p.declarations + 1 }) := rfl
  rw [declare_eq, hp.frames] at hrun
  exact ⟨_, _, _, {}, hrun, ⟨rfl, rfl, rfl⟩, ⟨rfl, hp.contextNames, hp.root?, hp.functions⟩,
    .none rfl rfl rfl rfl, rfl⟩

/-- A construct that is kept as it is counts as such. -/
theorem logs_unsupported (he : c.options.unsupported = .strict → E (.unsupported construct pos))
    (h : c.options.unsupported = .passThrough → Q kept F { raw := 1 }) :
    Logs s c E F (unsupported c construct pos kept) (unsupported c.lax construct pos kept) Q := by
  intro p hp
  unfold unsupported
  cases hpolicy : c.options.unsupported with
  | strict => exact ⟨he hpolicy, .inl rfl⟩
  | passThrough =>
    exact ⟨rfl, F, { raw := 1 }, h hpolicy, hp, ⟨trivial, rfl, rfl, rfl, rfl, rfl, rfl⟩,
      fun hstrict => by cases hstrict⟩

theorem logs_resolve {id : Ident} (he : E (.unresolved id.name id.pos)) :
    Reads s c E F (resolve c id) (resolve c.lax id) fun r l => l = {} ∧ Refers s c F id.name r := by
  show Reads s c E F (resolve c id) (resolve c id) _
  refine logs_get fun p hp => ?_
  rw [hp.resolve?]
  cases hr : lookIn s F id.name with
  | some r => exact reads_pure ⟨rfl, .inl hr⟩
  | none =>
    dsimp only
    split
    · next hanalysis => exact reads_pure ⟨rfl, .inr ⟨hr, hanalysis, rfl⟩⟩
    · exact logs_throw he

theorem logs_read (b : Binding) :
    Reads s c E F (read c b) (read c.lax b) fun e l => l = {} ∧ e = c.current b :=
  logs_count (reads_pure ⟨rfl, rfl⟩) fun _ => ⟨rfl, rfl⟩

theorem logs_callKey (ns : String) :
    Reads s c E F (callKey c ns) (callKey c.lax ns) (Keys c ns) := by
  show Reads s c E F (callKey c ns) (callKey c ns) _
  unfold callKey
  split
  · next hns =>
    refine logs_step fun p hp => ⟨_, _, F, _, rfl, ⟨rfl, .primary (beq_iff_eq.1 hns)⟩, ?_⟩
    exact ⟨⟨hp.frames, hp.contextNames, hp.root?, hp.functions⟩,
      ⟨trivial, rfl, rfl, rfl, rfl, rfl, rfl⟩, rfl⟩
  · next hns => exact reads_pure (.other fun heq => hns (beq_iff_eq.2 heq))

theorem logs_keyed (series offset : Expr) :
    Reads s c E F (keyed c series offset) (keyed c.lax series offset) fun e l =>
      ∃ k, e = c.param series offset k ∧ l = { params := [k] } := by
  refine logs_step fun p hp => ⟨_, _, F, _, rfl, ⟨rfl, _, rfl, rfl⟩, ?_⟩
  exact ⟨⟨hp.frames, hp.contextNames, hp.root?, hp.functions⟩,
    ⟨trivial, rfl, rfl, rfl, rfl, rfl, rfl⟩, rfl⟩

end Logs

/-! ## The pass -/

/-- Why slotting may fail if the script has the shape `S`: a name is not known, or a
construct is refused. -/
structure Refuses (c : Setting) (E : CompileError → Prop) (S : Shape) : Prop where
  unresolved : ∀ {id}, S.expr (.ident id) → E (.unresolved id.name id.pos)
  name : ∀ {id}, c.options.unsupported = .strict → S.expr (.ident id) →
    E (.unsupported (.assignToContextName id.name) id.pos)
  target : ∀ {t}, c.options.unsupported = .strict → t.isTarget = false →
    (∃ op v, S.expr (.assign op t v)) ∨ (∃ op first, S.expr (.update op first t)) →
      E (.unsupported .assignTarget (t.pos?.getD {}))
  pattern : ∀ {ds d construct}, c.options.unsupported = .strict → S.decls ds → d ∈ ds →
    (∀ id, d.target ≠ .ident id) → construct ∈ [.patternInLoopHeader, .patternOfPlainValue] →
      E (.unsupported construct d.pos)

theorem mem_of_patternPos? (h : patternPos? ds = some pos) :
    ∃ d ∈ ds, (∀ id, d.target ≠ .ident id) ∧ d.pos = pos := by
  induction ds with
  | nil => cases h
  | cons d rest ih =>
    obtain ⟨target, init, p⟩ := d
    cases target with
    | ident id =>
      obtain ⟨d, hd, hpos⟩ := ih h
      exact ⟨d, mem_cons_of_mem _ hd, hpos⟩
    | _ =>
      cases h
      exact ⟨_, mem_cons_self, nofun, rfl⟩

section Pass

variable {s : Scopes} {c : Setting} {E : CompileError → Prop} {S : Shape} (H : Refuses c E S)
  {F : List Frame}

include H

theorem logs_identifier {id : Ident} (hid : S.expr (.ident id)) (role : Role) :
    Reads s c E F (identifier c id role) (identifier c.lax id role) fun e l =>
      l = {} ∧ Uses s c F role id e := by
  unfold identifier
  split
  · next hnumber => exact reads_pure ⟨rfl, .kept (.inl hnumber)⟩
  · refine (logs_resolve (H.unresolved hid)).quiet fun r hr => ?_
    have hkept (hslot : ∀ b, r ≠ .slot b) : Uses s c F role id (.ident id) :=
      .kept (.inr ⟨r, hr, hslot⟩)
    cases r with
    | slot b =>
      obtain hr | ⟨-, -, hr⟩ := hr
      · cases role with
        | base => exact reads_pure ⟨rfl, .history hr⟩
        | value =>
          refine (logs_read b).mono ?_
          rintro _ _ ⟨rfl, rfl⟩
          exact ⟨rfl, .current hr⟩
      · cases hr
    | _ => exact reads_pure ⟨rfl, hkept fun _ h => by cases h⟩

theorem logs_assignedName {id : Ident} (hid : S.expr (.ident id)) :
    Reads s c E F (assignedName c id) (assignedName c.lax id) (SlotsTarget s c F (.ident id)) := by
  refine (logs_resolve (H.unresolved hid)).quiet fun r hr => ?_
  have hname (ha : Assignable s F id.name) : Reads s c E F (identifier c id .value)
      (identifier c.lax id .value) (SlotsTarget s c F (.ident id)) := by
    refine (logs_identifier H hid .value).mono ?_
    rintro t _ ⟨rfl, h⟩
    exact .name ha h
  cases r with
  | slot b =>
    obtain hr | ⟨-, -, hr⟩ := hr
    · exact hname (.inr ⟨b, hr⟩)
    · cases hr
  | loop =>
    obtain hr | ⟨-, -, hr⟩ := hr
    · exact hname (.inl hr)
    · cases hr
  | _ =>
    refine logs_unsupported (fun hc => H.name hc hid) fun h => ⟨rfl, .raw h (.inr ⟨id, rfl, ?_⟩)⟩
    rintro (ha | ⟨b, ha⟩)
    · obtain hr | ⟨hr, -⟩ := hr <;> cases ha.symm.trans hr
    · exact hr.ne_slot (fun _ h => by cases h) b ha

theorem logs_init (name : String) (hall : Expr.OptAll S init)
    (hinit : ∀ e ∈ init, Reads s c E F (e.slotted c .value) (e.slotted c.lax .value)
      (Slots s c F .value e)) :
    Reads s c E F (Expr.slottedInit c name init) (Expr.slottedInit c.lax name init)
      (SlotsInit s c F init) := by
  cases init with
  | none => exact reads_pure .none
  | some e =>
    have hplain : Reads s c E F (e.slotted c .value) (e.slotted c.lax .value)
        (SlotsInit s c F (some e)) :=
      (hinit e rfl).mono fun _ _ h => .some h
    by_cases helement : ∃ tuple i, e = .index (.ident tuple) (.number i)
    · obtain ⟨tuple, i, rfl⟩ := helement
      refine logs_get fun p hp => ?_
      by_cases htemp : (p.scopes.isElement name && p.scopes.isTemp tuple.name) = true
      · rw [if_pos htemp, if_pos htemp]
        -- the temporary is looked up without a change of state
        have hbinding : Reads s c E F
            (liftM (p.scopes.binding tuple.name tuple.pos) : Slotted.Pass Binding)
            (liftM (p.scopes.binding tuple.name tuple.pos) : Slotted.Pass Binding)
            fun b l => l = {} ∧ lookIn s F tuple.name = some (.slot b) := by
          cases hb : p.scopes.binding tuple.name tuple.pos with
          | error err =>
            refine logs_throw ?_
            rw [Scopes.eq_of_binding_error hb]
            exact H.unresolved hall.2.1
          | ok b =>
            have hslot := Scopes.resolve?_of_binding hb
            rw [hp.resolve?] at hslot
            exact reads_pure ⟨rfl, hslot⟩
        refine hbinding.quiet fun b hb => ?_
        refine (logs_read b).ret ?_
        rintro _ _ ⟨rfl, rfl⟩
        exact ⟨rfl, .element (.current hb)⟩
      · rw [if_neg htemp, if_neg htemp]
        exact hplain
    · have hrest (c : Setting) : Expr.slottedInit c name (some e) = e.slotted c .value := by
        dsimp only [Expr.slottedInit]
        split
        · exact absurd ⟨_, _, rfl⟩ helement
        · rfl
      rw [hrest, hrest]
      exact hplain

/-- The argument that an element of a name becomes: the offset is taken apart from what the
whole element becomes. -/
def keyedOffset (c : Setting) (id : Ident) : Expr → Pass Expr
  | .index base offset =>
    if isNumberName id.name then keyed c (.index base offset) .undefined else keyed c base offset
  | e => pure e

omit H in
theorem Expr.slottedParam_index (c : Setting) (id : Ident) (sub : Expr) :
    Expr.slottedParam c (.index (.ident id) sub) =
      ((Expr.index (.ident id) sub).slotted c .value >>= keyedOffset c id) := by
  simp only [Expr.slottedParam, Expr.slotted, bind_assoc, pure_bind, keyedOffset]

theorem logs_param {e : Expr} (hall : e.All S)
    (he : Reads s c E F (e.slotted c .value) (e.slotted c.lax .value) (Slots s c F .value e)) :
    Reads s c E F (e.slottedParam c) (e.slottedParam c.lax) (SlotsParam s c F e) := by
  have hwrapped : Reads s c E F (do keyed c (← e.slotted c .value) .undefined)
      (do keyed c.lax (← e.slotted c.lax .value) .undefined) (SlotsParam s c F e) := by
    refine he.bind fun e' l h => ?_
    refine (logs_keyed e' .undefined).mono ?_
    rintro _ _ ⟨k, rfl, rfl⟩
    exact .value h
  cases e with
  | func f =>
    show Reads s c E F (Expr.func <$> f.slotted c) (Expr.func <$> f.slotted c.lax) _
    rw [map_eq_pure_bind, map_eq_pure_bind]
    refine Reads.mono he fun _ l h => ?_
    cases h with
    | atom h => cases h
    | func h => exact .func h
  | ident id =>
    refine (logs_resolve (H.unresolved hall)).quiet fun r hr => ?_
    cases r with
    | function =>
      obtain hr | ⟨-, -, hr⟩ := hr
      · exact reads_pure (.function hr)
      · cases hr
    | slot b =>
      obtain hr | ⟨-, -, hr⟩ := hr
      · refine (logs_keyed (c.slot b) .undefined).mono ?_
        rintro _ _ ⟨k, rfl, rfl⟩
        exact .series (.history hr)
      · cases hr
    | _ => exact hwrapped
  | index base sub =>
    cases base with
    | ident id =>
      rw [Expr.slottedParam_index, Expr.slottedParam_index]
      refine he.bind fun e' l h => ?_
      cases h with
      | atom h => cases h
      | index hs hb =>
        dsimp only [keyedOffset]
        split
        · refine (logs_keyed _ _).mono ?_
          rintro _ _ ⟨k, rfl, rfl⟩
          exact .value (.index hs hb)
        · cases hb with
          | atom h => cases h
          | name hb =>
            refine (logs_keyed _ _).mono ?_
            rintro _ _ ⟨k, rfl, rfl⟩
            rw [Log.append_nil]
            exact .offset hs hb
    | _ => exact hwrapped
  | _ => exact hwrapped

theorem logs_declarator (hF : F ≠ [])
    (hE : (∀ id, target ≠ .ident id) → c.options.unsupported = .strict →
      E (.unsupported .patternOfPlainValue pos))
    (hall : Expr.OptAll S init)
    (hinit : ∀ e ∈ init, Reads s c E F (e.slotted c .value) (e.slotted c.lax .value)
      (Slots s c F .value e))
    (hrest : ∀ F₁, F₁ ≠ [] → Logs s c E F₁ x y fun stmts F' l =>
      SlotsDecls s c F₁ kind rest stmts F' l ∧ Within F₁ F') :
    Logs s c E F (do return (← Declarator.slotted c kind target init pos) :: (← x))
      (do return (← Declarator.slotted c.lax kind target init pos) :: (← y))
      fun stmts F' l => SlotsDecls s c F kind (⟨target, init, pos⟩ :: rest) stmts F' l ∧
        Within F F' := by
  have hhanded := within_handTo hF target.boundNames
  unfold Declarator.slotted
  have hroot : c.lax.root = c.root := rfl
  rw [hroot]
  by_cases hread : init.any (Expr.isContextRead c.root) = true
  · rw [if_pos hread, if_pos hread]
    simp only [bind_assoc, pure_bind]
    refine (logs_bindAll hF _).quiet ?_
    rintro _ _ rfl
    refine (hrest _ hhanded.ne_nil).ret ?_
    rintro stmts F' l ⟨h, hw⟩
    obtain ⟨e, rfl, he⟩ := (Option.any_eq_true _ _).1 hread
    exact ⟨.read he h, hhanded.trans hw⟩
  · rw [if_neg hread, if_neg hread]
    have hraw (htarget : ∀ id, target ≠ .ident id) : Logs s c E F
        (do
          let stmt ← unsupported c .patternOfPlainValue pos
            (Stmt.decl ⟨kind, [⟨target, init, pos⟩]⟩)
          bindAll target.boundNames
          return stmt :: (← x))
        (do
          let stmt ← unsupported c.lax .patternOfPlainValue pos
            (Stmt.decl ⟨kind, [⟨target, init, pos⟩]⟩)
          bindAll target.boundNames
          return stmt :: (← y))
        fun stmts F' l => SlotsDecls s c F kind (⟨target, init, pos⟩ :: rest) stmts F' l ∧
          Within F F' := by
      refine Logs.bind (Q := fun stmt F' l => c.options.unsupported = .passThrough ∧ F = F' ∧
        l = { raw := 1 } ∧ stmt = .decl ⟨kind, [⟨target, init, pos⟩]⟩)
        (logs_unsupported (hE htarget) fun h => ⟨h, rfl, rfl, rfl⟩) ?_
      rintro _ _ _ ⟨hpolicy, rfl, rfl, rfl⟩
      refine (logs_bindAll hF _).quiet ?_
      rintro _ _ rfl
      refine (hrest _ hhanded.ne_nil).ret ?_
      rintro stmts F' l ⟨h, hw⟩
      exact ⟨.raw hpolicy htarget hread h, hhanded.trans hw⟩
    cases target with
    | ident id =>
      simp only [bind_assoc]
      refine (logs_init H id.name hall hinit).bind fun e' l hi => ?_
      refine (logs_declared kind id.name e').quiet ?_
      rintro _ _ ⟨rfl, rfl⟩
      have hdeclared := within_declareIn hF (slotIn F id.name kind.bucket)
      refine (hrest _ hdeclared.ne_nil).ret ?_
      rintro stmts F' l' ⟨h, hw⟩
      exact ⟨.slot hread hi h, hdeclared.trans hw⟩
    | _ =>
      simp only [bind_assoc, pure_bind]
      exact hraw nofun

end Pass

end Naming

open Naming

section Trees

variable {s : Scopes} {c : Setting} {E : CompileError → Prop} {S : Shape} (H : Refuses c E S)

include H

set_option linter.unusedSectionVars false -- used through other members

mutual

theorem Expr.slotted_slots (F : List Frame) (role : Role) {e : Expr} (he : e.All S) :
    Reads s c E F (e.slotted c role) (e.slotted c.lax role) (Slots s c F role e) := by
  match e with
  | .ident id =>
    refine (logs_identifier H he role).mono ?_
    rintro e' _ ⟨rfl, h⟩
    exact .name h
  | .member _ _ => exact (Expr.slotted_slots F .value he.2).ret fun _ _ h => ⟨rfl, .member h⟩
  | .index _ _ =>
    refine (Expr.slotted_slots F .value he.2.2).bind fun _ _ hs => ?_
    exact (Expr.slotted_slots F .base he.2.1).ret fun _ _ hb => ⟨rfl, .index hs hb⟩
  | .call callee args =>
    unfold Expr.slotted
    refine logs_get fun p hp => ?_
    show Logs s c E F (match namespaceOf c p.scopes callee with | some ns => _ | none => _)
      (match namespaceOf c p.scopes callee with | some ns => _ | none => _) _
    rw [hp.namespaceOf]
    cases hspace : namespaceOf c { s with frames := F } callee with
    | some ns =>
      refine logs_count ?_ fun _ => ⟨rfl, rfl⟩
      refine (Expr.slottedParams_slots F he.2.2).bind fun _ _ ha => ?_
      exact (logs_callKey ns).ret fun _ _ hk => ⟨rfl, .spaceCall hspace ha hk⟩
    | none =>
      refine (Expr.slotted_slots F .value he.2.1).bind fun _ _ hc => ?_
      exact (Expr.listSlotted_slots F he.2.2).ret fun _ _ ha => ⟨rfl, .call hspace hc ha⟩
  | .unary _ _ => exact (Expr.slotted_slots F .value he.2).ret fun _ _ h => ⟨rfl, .unary h⟩
  | .update _ _ _ =>
    refine (Expr.slottedTarget_slots F he.2 fun hc ht => ?_).ret fun _ _ h => ⟨rfl, .update h⟩
    exact H.target hc ht (.inr ⟨_, _, he.1⟩)
  | .binary _ _ _ =>
    refine (Expr.slotted_slots F .value he.2.1).bind fun _ _ hl => ?_
    exact (Expr.slotted_slots F .value he.2.2).ret fun _ _ hr => ⟨rfl, .binary hl hr⟩
  | .logical _ _ _ =>
    refine (Expr.slotted_slots F .value he.2.1).bind fun _ _ hl => ?_
    exact (Expr.slotted_slots F .value he.2.2).ret fun _ _ hr => ⟨rfl, .logical hl hr⟩
  | .conditional _ _ _ =>
    refine (Expr.slotted_slots F .value he.2.1).bind fun _ _ ht => ?_
    refine (Expr.slotted_slots F .value he.2.2.1).bind fun _ _ hc => ?_
    exact (Expr.slotted_slots F .value he.2.2.2).ret fun _ _ ha => ⟨rfl, .conditional ht hc ha⟩
  | .assign _ _ _ =>
    refine (Expr.slottedTarget_slots F he.2.1 fun hc ht => ?_).bind fun _ _ ht => ?_
    · exact H.target hc ht (.inl ⟨_, _, he.1⟩)
    · exact (Expr.slotted_slots F .value he.2.2).ret fun _ _ hv => ⟨rfl, .assign ht hv⟩
  | .array _ => exact (Expr.listSlotted_slots F he.2).ret fun _ _ h => ⟨rfl, .array h⟩
  | .object _ => exact (Expr.propSlotted_slots F he.2).ret fun _ _ h => ⟨rfl, .object h⟩
  | .func _ => exact (Func.slotted_slots F he.2).ret fun _ _ h => ⟨rfl, .func h⟩
  | .number _ | .str _ | .bool _ | .null | .undefined | .this => exact reads_pure (.atom rfl)

theorem Expr.slottedTarget_slots (F : List Frame) {e : Expr} (he : e.All S)
    (hE : c.options.unsupported = .strict → e.isTarget = false →
      E (.unsupported .assignTarget (e.pos?.getD {}))) :
    Reads s c E F (e.slottedTarget c) (e.slottedTarget c.lax) (SlotsTarget s c F e) := by
  match e with
  | .ident id => exact logs_assignedName H he
  | .member _ _ => exact (Expr.slotted_slots F .value he.2).ret fun _ _ h => ⟨rfl, .member h⟩
  | .index _ _ =>
    refine (Expr.slotted_slots F .value he.2.2).bind fun _ _ hs => ?_
    exact (Expr.slotted_slots F .base he.2.1).ret fun _ _ hb => ⟨rfl, .index hs hb⟩
  | .call _ _ | .unary _ _ | .update _ _ _ | .binary _ _ _ | .logical _ _ _ | .conditional _ _ _
  | .assign _ _ _ | .array _ | .object _ | .func _ | .number _ | .str _ | .bool _ | .null
  | .undefined | .this =>
    exact logs_unsupported (fun hc => hE hc rfl) fun h => ⟨rfl, .raw h (.inl rfl)⟩

theorem Expr.listSlotted_slots (F : List Frame) (h : Expr.ListAll S es) :
    Reads s c E F (Expr.listSlotted c es) (Expr.listSlotted c.lax es) (SlotsList s c F es) := by
  match es with
  | [] => exact reads_pure .nil
  | _ :: _ =>
    refine (Expr.slotted_slots F .value h.1).bind fun _ _ he => ?_
    exact (Expr.listSlotted_slots F h.2).ret fun _ _ hes => ⟨rfl, .cons he hes⟩

theorem Expr.slottedParams_slots (F : List Frame) (h : Expr.ListAll S es) :
    Reads s c E F (Expr.slottedParams c es) (Expr.slottedParams c.lax es)
      (SlotsParams s c F es) := by
  match es with
  | [] => exact reads_pure .nil
  | _ :: _ =>
    rw [Expr.slottedParams_cons, Expr.slottedParams_cons]
    refine (logs_param H h.1 (Expr.slotted_slots F .value h.1)).bind fun _ _ he => ?_
    exact (Expr.slottedParams_slots F h.2).ret fun _ _ hes => ⟨rfl, .cons he hes⟩

theorem Expr.propSlotted_slots (F : List Frame) (h : Expr.PropAll S props) :
    Reads s c E F (Expr.propSlotted c props) (Expr.propSlotted c.lax props)
      (SlotsProps s c F props) := by
  match props with
  | [] => exact reads_pure .nil
  | (_, _) :: _ =>
    refine (Expr.slotted_slots F .value h.1).bind fun _ _ he => ?_
    exact (Expr.propSlotted_slots F h.2).ret fun _ _ hes => ⟨rfl, .cons he hes⟩

theorem Expr.optSlotted_slots (F : List Frame) (h : Expr.OptAll S e?) :
    Reads s c E F (Expr.optSlotted c e?) (Expr.optSlotted c.lax e?) (SlotsOpt s c F e?) := by
  match e? with
  | none => exact reads_pure .none
  | some _ => exact (Expr.slotted_slots F .value h).ret fun _ _ h => ⟨rfl, .some h⟩

theorem Func.slotted_slots (F : List Frame) {f : Func} (h : f.All S) :
    Reads s c E F (f.slotted c) (f.slotted c.lax) (SlotsFunc s c F f) := by
  obtain ⟨name, params, body, style, pos⟩ := f
  unfold Func.slotted
  refine (logs_enter .function).bind ?_
  rintro _ _ _ ⟨n, rfl, rfl⟩
  refine (logs_bindAll (cons_ne_nil _ _) params).quiet ?_
  rintro _ _ rfl
  have hw := within_handTo (cons_ne_nil { kind := .function, serial := n } F) params
  match body with
  | .block stmts =>
    refine Logs.leaving ((Stmt.listSlotted_slots _ hw.ne_nil h.2).map
      (P := fun b F' l => SlotsFunc s c F ⟨name, params, .block stmts, style, pos⟩
        ⟨name, params, b, style, pos⟩ (({ scopes := [(.function, n)] } : Log) ++ l) ∧
          Within (enterIn .function n F) F') ?_) .function n F ?_
    · exact fun _ _ _ h => ⟨.block h.1, hw.trans h.2⟩
    · exact fun _ _ _ h => ⟨h.2, rfl, h.1⟩
  | .expr e =>
    refine Logs.leaving ((Expr.slotted_slots _ .value h.2).map
      (P := fun b F' l => SlotsFunc s c F ⟨name, params, .expr e, style, pos⟩
        ⟨name, params, b, style, pos⟩ (({ scopes := [(.function, n)] } : Log) ++ l) ∧
          Within (enterIn .function n F) F') ?_) .function n F ?_
    · rintro _ _ _ ⟨rfl, h⟩
      exact ⟨.expr h, hw⟩
    · exact fun _ _ _ h => ⟨h.2, rfl, h.1⟩

theorem Stmt.slotted_slots (F : List Frame) (hF : F ≠ []) (inside : Bool) {t : Stmt}
    (h : t.All S) : Logs s c E F (t.slotted c inside) (t.slotted c.lax inside) fun stmts F' l =>
      SlotsStmt s c F inside t stmts F' l ∧ Within F F' := by
  match t with
  | .decl ⟨kind, ds⟩ =>
    refine (Declarator.listSlotted_slots F hF kind h.2 fun d hd ht hc => ?_).mono fun _ _ _ h =>
      ⟨.decl h.1, h.2⟩
    exact H.pattern hc h.1 hd ht (by simp)
  | .expr _ => exact (Expr.slotted_slots F .value h).ret fun _ _ h => ⟨.expr h, .refl hF⟩
  | .branch test consequent none =>
    refine (Expr.slotted_slots F .value h.1).bind fun test' l₁ ht => ?_
    refine (logs_enter .branch).bind ?_
    rintro _ _ _ ⟨n, rfl, rfl⟩
    refine (Stmt.slotted_slots _ (cons_ne_nil _ _) true h.2.1).leaving .branch n F
      (h := fun stmts => [Stmt.branch test' (.block stmts) none]) ?_
    rintro stmts F₁ l₂ ⟨hs, hw⟩
    have h : SlotsStmt s c F inside _ _ _ _ := .branch ht hs .none
    rw [Log.append_nil] at h
    exact ⟨hw, h, .refl hF⟩
  | .branch test consequent (some alternate) =>
    refine (Expr.slotted_slots F .value h.1).bind fun test' l₁ ht => ?_
    refine (logs_enter .branch).bind ?_
    rintro _ _ _ ⟨n, rfl, rfl⟩
    refine (Stmt.slotted_slots _ (cons_ne_nil _ _) true h.2.1).bind ?_
    rintro stmts F₁ l₂ ⟨hs, hw⟩
    refine logs_leave.quiet ?_
    rintro _ _ rfl
    rw [hw.tail]
    refine (logs_enter .otherwise).bind ?_
    rintro _ _ _ ⟨n', rfl, rfl⟩
    refine (Stmt.slotted_slots _ (cons_ne_nil _ _) true h.2.2).leaving .otherwise n' F
      (h := fun stmts' => [Stmt.branch test' (.block stmts) (some (.block stmts'))]) ?_
    rintro stmts' F₂ l₃ ⟨hs', hw'⟩
    exact ⟨hw', .branch ht hs (.some hs'), .refl hF⟩
  | .forLoop init test update body =>
    rw [Stmt.slotted_forLoop, Stmt.slotted_forLoop]
    refine (logs_enter .forLoop).bind ?_
    rintro _ _ _ ⟨n, rfl, rfl⟩
    have hopen : enterIn .forLoop n F ≠ [] := cons_ne_nil _ _
    have hloop : Logs s c E (enterIn .forLoop n F) (Stmt.loopSlotted c init test update body)
        (Stmt.loopSlotted c.lax init test update body)
        fun loop F' l => Within (enterIn .forLoop n F) F' ∧
          SlotsStmt s c F inside (.forLoop init test update body) [loop] F
            (({ scopes := [(.forLoop, n)] } : Log) ++ l) := by
      unfold Stmt.loopSlotted
      cases hplain : headerPatternPos? init with
      | some pos =>
        refine logs_unsupported (fun hc => ?_) fun h => ⟨.refl hopen, .rawLoop h (by simp [hplain])⟩
        match init with
        | some (.decl ⟨kind, ds⟩) =>
          obtain ⟨d, hd, htarget, rfl⟩ := mem_of_patternPos? hplain
          exact H.pattern hc h.1.1 hd htarget (by simp)
      | none =>
        have hstart : Logs s c E (enterIn .forLoop n F) (ForInit.optSlotted c init)
            (ForInit.optSlotted c.lax init) fun init' F' l =>
            SlotsHeader s c (enterIn .forLoop n F) init init' F' l ∧
              Within (enterIn .forLoop n F) F' := by
          match init with
          | none => exact logs_pure ⟨.none, .refl hopen⟩
          | some (.decl ⟨kind, ds⟩) =>
            exact (Declarator.headerSlotted_slots _ hopen h.1.2).map fun _ _ _ h =>
              ⟨.decl h.1, h.2⟩
          | some (.expr e) =>
            refine Logs.map (Expr.slotted_slots _ .value h.1) ?_
            rintro e' _ l ⟨rfl, h⟩
            exact ⟨.expr h, .refl hopen⟩
        refine hstart.bind ?_
        rintro init' F₁ l₁ ⟨hi, hw⟩
        refine (Expr.optSlotted_slots F₁ h.2.1).bind fun _ _ ht => ?_
        refine (Expr.optSlotted_slots F₁ h.2.2.1).bind fun _ _ hu => ?_
        refine (Stmt.slotted_slots F₁ hw.ne_nil true h.2.2.2).ret ?_
        rintro stmts F₂ l₄ ⟨hs, hw'⟩
        exact ⟨hw.trans hw', .forLoop hplain hi ht hu hs⟩
    exact hloop.leaving .forLoop n F fun loop F' l h => ⟨h.1, h.2, .refl hF⟩
  | .whileLoop test body =>
    refine (logs_enter .whileLoop).bind ?_
    rintro _ _ _ ⟨n, rfl, rfl⟩
    refine (Expr.slotted_slots _ .value h.1).bind fun test' l₁ ht => ?_
    refine (Stmt.slotted_slots _ (cons_ne_nil _ _) true h.2).leaving .whileLoop n F
      (h := fun stmts => [Stmt.whileLoop test' (.block stmts)]) ?_
    rintro stmts F₁ l₂ ⟨hs, hw⟩
    exact ⟨hw, .whileLoop ht hs, .refl hF⟩
  | .block _ => exact (Stmt.listSlotted_slots F hF h).ret fun _ _ _ h => ⟨.block h.1, h.2⟩
  | .ret none => exact logs_pure ⟨.step rfl, .refl hF⟩
  | .ret (some e) =>
    refine (Expr.slotted_slots F .value h).bind fun e' l h => ?_
    refine logs_get fun p hp => ?_
    have hstmt : SlotsStmt s c F inside _ _ _ _ := .ret h
    have hfunction : p.scopes.inFunction = F.any fun f => f.kind == .function :=
      congrArg (fun l : List Frame => l.any fun f => f.kind == .function) hp.frames
    rw [← hfunction] at hstmt
    by_cases hin : p.scopes.inFunction = true
    · rw [if_pos hin] at hstmt
      rw [if_pos hin, if_pos hin]
      exact logs_pure ⟨(Log.append_nil l).symm ▸ hstmt, .refl hF⟩
    · rw [if_neg hin] at hstmt
      rw [if_neg hin, if_neg hin]
      exact logs_pure ⟨(Log.append_nil l).symm ▸ hstmt, .refl hF⟩
  | .func _ => exact (Func.slotted_slots F h.2.2).ret fun _ _ h => ⟨.func h, .refl hF⟩
  | .breakLoop | .continueLoop | .empty => exact logs_pure ⟨.step rfl, .refl hF⟩

theorem Stmt.listSlotted_slots (F : List Frame) (hF : F ≠ []) (h : Stmt.ListAll S stmts) :
    Logs s c E F (Stmt.listSlotted c stmts)
      (Stmt.listSlotted c.lax stmts) fun stmts' F' l =>
        SlotsStmts s c F stmts stmts' F' l ∧ Within F F' := by
  match stmts with
  | [] => exact logs_pure ⟨.nil, .refl hF⟩
  | _ :: _ =>
    refine (Stmt.slotted_slots F hF false h.1).bind fun _ F₁ _ ht => ?_
    exact (Stmt.listSlotted_slots F₁ ht.2.ne_nil h.2).ret fun _ _ _ hrest =>
      ⟨.cons ht.1 hrest.1, ht.2.trans hrest.2⟩

theorem Declarator.listSlotted_slots (F : List Frame) (hF : F ≠ []) (kind : DeclKind)
    (h : Declarator.ListAll S ds)
    (hE : ∀ d ∈ ds, (∀ id, d.target ≠ .ident id) → c.options.unsupported = .strict →
      E (.unsupported .patternOfPlainValue d.pos)) :
    Logs s c E F (Declarator.listSlotted c kind ds) (Declarator.listSlotted c.lax kind ds)
      fun stmts F' l => SlotsDecls s c F kind ds stmts F' l ∧ Within F F' := by
  match ds with
  | [] => exact logs_pure ⟨.nil, .refl hF⟩
  | ⟨target, init, pos⟩ :: rest =>
    obtain ⟨hd, hrest⟩ := forall_mem_cons.1 hE
    rw [Declarator.listSlotted_cons, Declarator.listSlotted_cons]
    refine logs_declarator H hF hd h.2.1 ?_ fun F₁ hF₁ =>
      Declarator.listSlotted_slots F₁ hF₁ kind h.2.2 hrest
    match init with
    | none => exact fun _ he => by cases he
    | some e =>
      rintro _ ⟨⟩
      exact Expr.slotted_slots F .value h.2.1

theorem Declarator.headerSlotted_slots (F : List Frame) (hF : F ≠ []) (h : Declarator.ListAll S ds)
    :
    Logs s c E F (Declarator.headerSlotted c ds) (Declarator.headerSlotted c.lax ds)
      fun ds' F' l => SlotsCounters s c F ds ds' F' l ∧ Within F F' := by
  match ds with
  | [] => exact logs_pure ⟨.nil, .refl hF⟩
  | ⟨target, init, pos⟩ :: rest =>
    refine (Expr.optSlotted_slots F h.2.1).bind fun _ _ hi => ?_
    refine Logs.quiet (Q := fun _ F' => F' = countIn F target.boundNames)
      (logs_note fun t ht => ?_) ?_
    · subst ht
      exact addLoopVars_eq target.boundNames t
    · rintro _ _ rfl
      have hw := within_countIn hF target.boundNames
      exact (Declarator.headerSlotted_slots _ hw.ne_nil h.2.2).ret fun _ _ _ hrest =>
        ⟨.cons hi hrest.1, hw.trans hrest.2⟩

end

theorem FuncBody.slotted_slots (F : List Frame) (hF : F ≠ []) {body : FuncBody}
    (h : body.All S) : Logs s c E F (body.slotted c) (body.slotted c.lax) fun body' F' l =>
      SlotsBody s c F body body' l ∧ Within F F' := by
  cases body with
  | block stmts =>
    exact (Stmt.listSlotted_slots H F hF h).ret fun _ _ _ h => ⟨.block h.1, h.2⟩
  | expr e => exact (Expr.slotted_slots H F .value h).ret fun _ _ h => ⟨.expr h, .refl hF⟩

end Trees

/-- **What slotting makes of a script**: it takes place inside of one scope for the whole
script, and hands out what the log says. -/
theorem Program.slotted_slots {p : Program} {s : Scopes}
    {E : CompileError → Prop} (H : Refuses ⟨options, s.root⟩ E S) (h : p.root.body.All S) :
    Beside E (p.slotted options s) (p.slotted options.lax s) fun (q, progress) =>
      ∃ (body : FuncBody) (n : Nat) (l : Log), q = ⟨{ p.root with body }⟩ ∧
        SlotsBody s ⟨options, s.root⟩ (enterIn .global n s.frames) p.root.body body l ∧
          Hands { scopes := s } progress (({ scopes := [(.global, n)] } : Log) ++ l) ∧
            (options.unsupported = .strict → l.raw = 0) := by
  have hpass : Logs s ⟨options, s.root⟩ E s.frames
      (do
        enter .global
        let body ← p.root.body.slotted ⟨options, s.root⟩
        leave
        return body)
      (do
        enter .global
        let body ← p.root.body.slotted (Setting.lax ⟨options, s.root⟩)
        leave
        return body)
      fun body F' l => ∃ n l',
        SlotsBody s ⟨options, s.root⟩ (enterIn .global n s.frames) p.root.body body l' ∧
          l = ({ scopes := [(.global, n)] } : Log) ++ l' := by
    refine (logs_enter .global).bind ?_
    rintro _ _ _ ⟨n, rfl, rfl⟩
    refine (FuncBody.slotted_slots H _ (cons_ne_nil _ _) h).leaving .global n s.frames ?_
    rintro body F' l ⟨hbody, hw⟩
    exact ⟨hw, n, l, hbody, rfl⟩
  refine (hpass { scopes := s } ⟨rfl, rfl, rfl, rfl⟩).bind ?_
  rintro ⟨body, progress⟩ ⟨F', _, ⟨n, l, hbody, rfl⟩, -, hl, hraw⟩
  exact ⟨rfl, body, n, l, rfl, hbody, hl, fun hc => (Nat.add_eq_zero_iff.1 (hraw hc)).2⟩

/-! ## From the source on -/

namespace Naming

variable {p slotted : Program} {options : Options} {progress : Progress}

theorem refuses_any (c : Setting) : Refuses c (fun _ => True) .any where
  unresolved _ := trivial
  name _ _ := trivial
  target _ _ _ := trivial
  pattern _ _ _ _ _ := trivial

/-- A script comes out of its normal form with no open scope and nothing handed out. -/
theorem normal_fixed (p : Program) :
    NormalForm.fixed (p.normal {}).2.scopes = NormalForm.fixed (p.scoped {}) :=
  (Program.normal_all (NormalForm.keeps_any _ _) (FuncBody.all_any _)).2

/-- The scope of the whole script. -/
def topFrame : Frame := { kind := .global, serial := 1 }

/-- A log of a whole compilation: all that is handed out is numbered from the start. -/
structure Complete (l : Log) (progress : Progress) : Prop where
  scopes : ((.global, 1) :: l.scopes).Nodup
  calls : l.calls = (List.range progress.scopes.callIds).map callKeyAt
  params : l.params = (List.range progress.scopes.paramIds).map paramKeyAt
  raw : l.raw = progress.passedThrough

/-- **The stages of a compilation** make what slotting makes of the normal form of the
script in its own scope, and the log is complete. -/
theorem stages_beside (H : Refuses ⟨options, p.rootParam⟩ E S)
    (h : (p.stages options).normal.root.body.All S) :
    Beside E (p.stages options).slotted (p.stages options.lax).slotted fun (q, progress) =>
      ∃ body l, q = ⟨{ (p.stages options).normal.root with body }⟩ ∧
        SlotsBody (p.stages options).met.scopes ⟨options, p.rootParam⟩ [topFrame]
          (p.stages options).normal.root.body body l ∧ Complete l progress ∧
            (options.unsupported = .strict → progress.passedThrough = 0) := by
  have hfixed := normal_fixed p
  have hframes : (p.normal {}).2.scopes.frames = [] := congrArg (·.1) hfixed
  have hentered : (p.normal {}).2.scopes.entered = [] := congrArg (·.2.2.2.1) hfixed
  have hcallIds : (p.normal {}).2.scopes.callIds = 0 := congrArg (·.2.2.2.2.1) hfixed
  have hparamIds : (p.normal {}).2.scopes.paramIds = 0 := congrArg (·.2.2.2.2.2) hfixed
  have hroot := NormalForm.root_of_fixed hfixed
  rw [← hroot] at H
  refine (Program.slotted_slots H h).mono ?_
  rintro ⟨q, progress⟩ ⟨body, n, l, rfl, hbody, hhands, hstrict⟩
  obtain ⟨hscopes, -, hcalls, hcallIds', hparams, hparamIds', hraw⟩ := hhands
  rw [Log.append_eq] at hscopes hcalls hcallIds' hparams hparamIds' hraw
  rw [hentered] at hscopes
  obtain rfl : n = 1 := hscopes.1
  rw [hroot, hframes] at hbody
  rw [List.nil_append, hcallIds] at hcalls hcallIds'
  rw [List.nil_append, hparamIds] at hparams hparamIds'
  rw [Nat.zero_add] at hcallIds' hparamIds'
  rw [Nat.zero_add, Nat.zero_add] at hraw
  refine ⟨body, l, rfl, hbody, ⟨hscopes.nodup.1, ?_, ?_, hraw.symm⟩, fun hc =>
    hraw.trans (hstrict hc)⟩
  · rw [hcallIds', range_eq_range']
    exact hcalls
  · rw [hparamIds', range_eq_range']
    exact hparams

/-- **Compiling a tree**, beside compiling it so that nothing is refused. -/
theorem compiled_beside (H : Refuses ⟨options, p.rootParam⟩ E S)
    (h : (p.stages options).normal.root.body.All S) :
    Beside E (p.compiled options) (p.compiled options.lax) fun (_, counters) =>
      options.unsupported = .strict → counters.passedThrough = 0 := by
  refine (stages_beside H h).bind ?_
  rintro ⟨q, progress⟩ ⟨-, -, -, -, -, hraw⟩
  exact ⟨rfl, hraw⟩

/-- Whatever the stages give is what slotting makes of the normal form. -/
theorem stages_slots (h : (p.stages options).slotted = .ok (slotted, progress)) :
    ∃ body l, slotted = ⟨{ (p.stages options).normal.root with body }⟩ ∧
      SlotsBody (p.stages options).met.scopes ⟨options, p.rootParam⟩ [topFrame]
        (p.stages options).normal.root.body body l ∧ Complete l progress := by
  obtain ⟨body, l, hq, hbody, hl, -⟩ :=
    (stages_beside (refuses_any _) (FuncBody.all_any _)).of_eq_ok h
  exact ⟨body, l, hq, hbody, hl⟩

/-- **The stages of a compilation render the normal form** of the script in its own
scope, and the log is complete. -/
theorem stages_render (H : Faithful (p.stages options).met.scopes ⟨options, p.rootParam⟩ R)
    (h : (p.stages options).slotted = .ok (slotted, progress)) :
    ∃ l, RendersBody ⟨options, p.rootParam⟩ R [topFrame] (p.stages options).normal.root.body
      slotted.root.body l ∧ Complete l progress := by
  obtain ⟨body, l, rfl, hbody, hl⟩ := stages_slots h
  exact ⟨l, hbody.renders H, hl⟩

end Naming

end BarScript

import BarScript.Proofs.Naming.Rendering

/-!
# What slotting makes of scripts

The relation that slotting computes, between a script, the scopes that are open where it
stands, its slotted form, and a log of all that is handed out. A name is what the scopes
say it is, only names that a script keeps itself are assigned to, and the header of a loop
that is not kept as it is binds single names. Everything that is known of slotted scripts
is read off this relation; in particular they are renderings, for every reading that agrees
with the scopes.
-/

namespace BarScript

open Slotted

namespace Naming

/-! ## Names in open scopes -/

/-- What a name refers to where the frames `F` are open. -/
def lookIn (s : Scopes) (F : List Frame) (name : String) : Option Resolution :=
  Scopes.resolve? { s with frames := F } name

theorem resolve?_cases {f : Frame} (h : f.resolve? name = some r) :
    name ∈ f.loopVars ∧ r = .loop ∨ name ∈ f.bound ∧ r = .contextBound ∨ ∃ b, r = .slot b := by
  unfold Frame.resolve? at h
  split at h
  · next hloop => exact .inl ⟨List.contains_iff_mem.1 hloop, (Option.some.inj h).symm⟩
  · split at h
    · next hbound => exact .inr (.inl ⟨List.contains_iff_mem.1 hbound, (Option.some.inj h).symm⟩)
    · obtain ⟨b, -, rfl⟩ := Option.map_eq_some_iff.1 h
      exact .inr (.inr ⟨b, rfl⟩)

/-- A name is known because an open scope has met it, or for what it is in the whole
script. -/
theorem lookIn_cases {s : Scopes} (h : lookIn s F name = some r) :
    (∃ f ∈ F, f.resolve? name = some r) ∨ s.root? = some name ∧ r = .root ∨
      name ∈ s.contextNames ∧ r = .contextBound ∨ name ∈ s.functions ∧ r = .function := by
  unfold lookIn Scopes.resolve? at h
  cases hfind : F.findSome? fun f => f.resolve? name with
  | some r' =>
    rw [hfind] at h
    cases h
    exact .inl (List.exists_of_findSome?_eq_some hfind)
  | none =>
    rw [hfind] at h
    dsimp only at h
    split at h
    · next hroot => exact .inr (.inl ⟨beq_iff_eq.1 hroot, (Option.some.inj h).symm⟩)
    · split at h
      · next hname =>
        exact .inr (.inr (.inl ⟨List.contains_iff_mem.1 hname, (Option.some.inj h).symm⟩))
      · split at h
        · next hname =>
          exact .inr (.inr (.inr ⟨List.contains_iff_mem.1 hname, (Option.some.inj h).symm⟩))
        · cases h

/-- What a use of a name is settled with where the frames `F` are open. The analysis
namespaces are known even if nothing binds them. -/
def Refers (s : Scopes) (c : Setting) (F : List Frame) (name : String) (r : Resolution) : Prop :=
  lookIn s F name = some r ∨
    lookIn s F name = none ∧ c.options.isAnalysis name = true ∧ r = .contextBound

theorem Refers.ne_slot {s : Scopes} {c : Setting} (h : Refers s c F name r) (hr : ∀ b, r ≠ .slot b)
    (b : Binding) :
    lookIn s F name ≠ some (.slot b) := by
  intro hb
  rcases h with h | ⟨h, -⟩
  · exact hr b (Option.some.inj (h.symm.trans hb))
  · exact nomatch h.symm.trans hb

/-! ## The relation -/

variable (s : Scopes) (c : Setting)

/-- What a use of a name becomes. -/
inductive Uses (F : List Frame) : Role → Ident → Expr → Prop
  | current {id : Ident} (h : lookIn s F id.name = some (.slot b)) : Uses F .value id (c.current b)
  | history {id : Ident} (h : lookIn s F id.name = some (.slot b)) : Uses F .base id (c.slot b)
  | kept {id : Ident} (h : isNumberName id.name = true ∨
      ∃ r, Refers s c F id.name r ∧ ∀ b, r ≠ .slot b) : Uses F role id (.ident id)

/-- A name that scripts may assign to: it has a slot, or it counts a loop. -/
def Assignable (F : List Frame) (name : String) : Prop :=
  lookIn s F name = some .loop ∨ ∃ b, lookIn s F name = some (.slot b)

/-- The reading that the scopes of a compilation give. -/
abbrev resolved : Reading where
  use F role id e := Uses s c F role id e
  space F callee ns? := namespaceOf c { s with frames := F } callee = ns?
  function F id := lookIn s F id.name = some .function
  assigned F id := Assignable s F id.name
  header init := headerPatternPos? init = none
  declared init := ¬ init.any (Expr.isContextRead c.root) = true
  raw F e := e.isTarget = false ∨ ∃ id, e = .ident id ∧ ¬ Assignable s F id.name

/-- What slotting makes of expressions in open scopes. -/
abbrev Slots := Renders c (resolved s c)
abbrev SlotsTarget := RendersTarget c (resolved s c)
abbrev SlotsList := RendersList c (resolved s c)
abbrev SlotsProps := RendersProps c (resolved s c)
abbrev SlotsParam := RendersParam c (resolved s c)
abbrev SlotsParams := RendersParams c (resolved s c)
abbrev SlotsOpt := RendersOpt c (resolved s c)
abbrev SlotsFunc := RendersFunc c (resolved s c)
abbrev SlotsStmt := RendersStmt c (resolved s c)
abbrev SlotsStmts := RendersStmts c (resolved s c)
abbrev SlotsAlternate := RendersAlternate c (resolved s c)
abbrev SlotsDecls := RendersDecls c (resolved s c)
abbrev SlotsInit := RendersInit c (resolved s c)
abbrev SlotsHeader := RendersHeader c (resolved s c)
abbrev SlotsCounters := RendersCounters c (resolved s c)
abbrev SlotsBody := RendersBody c (resolved s c)

/-! ## Slotted scripts are renderings -/

/-- A reading that agrees with what the scopes say. -/
structure Faithful (s : Scopes) (c : Setting) (R : Reading) : Prop where
  current : ∀ {F : List Frame} {id : Ident} {b : Binding},
    lookIn s F id.name = some (.slot b) → R.use F .value id (c.current b)
  history : ∀ {F : List Frame} {id : Ident} {b : Binding},
    lookIn s F id.name = some (.slot b) → R.use F .base id (c.slot b)
  kept : ∀ {F : List Frame} {id : Ident} (role : Role),
    (isNumberName id.name = true ∨ ∃ r, Refers s c F id.name r ∧ ∀ b, r ≠ .slot b) →
      R.use F role id (.ident id)
  space : ∀ (F : List Frame) (callee : Expr),
    R.space F callee (namespaceOf c { s with frames := F } callee)
  function : ∀ {F : List Frame} {id : Ident}, lookIn s F id.name = some .function → R.function F id
  assigned : ∀ F id, R.assigned F id := by exact fun _ _ => trivial
  header : ∀ init, R.header init := by exact fun _ => trivial
  declared : ∀ init, R.declared init := by exact fun _ => trivial
  raw : ∀ F e, R.raw F e := by exact fun _ _ => trivial

variable {s c} {R : Reading} (H : Faithful s c R)

include H

theorem Uses.faithful {id : Ident} (h : Uses s c F role id e) : R.use F role id e := by
  cases h with
  | current h => exact H.current h
  | history h => exact H.history h
  | kept h => exact H.kept role h

set_option linter.unusedSectionVars false -- used through other members

mutual

theorem Renders.renders (h : Slots s c F role e e' l) : Renders c R F role e e' l :=
  match h with
  | .atom h => .atom h
  | .name h => .name (h.faithful H)
  | .member h => .member h.renders
  | .index hs hb => .index hs.renders hb.renders
  | .spaceCall hns ha hk => .spaceCall (hns ▸ H.space _ _) ha.renders hk
  | .call hns hc ha => .call (hns ▸ H.space _ _) hc.renders ha.renders
  | .unary h => .unary h.renders
  | .update h => .update h.renders
  | .binary hl hr => .binary hl.renders hr.renders
  | .logical hl hr => .logical hl.renders hr.renders
  | .conditional ht he ha => .conditional ht.renders he.renders ha.renders
  | .assign ht hv => .assign ht.renders hv.renders
  | .array h => .array h.renders
  | .object h => .object h.renders
  | .func h => .func h.renders

theorem RendersTarget.renders (h : SlotsTarget s c F e e' l) : RendersTarget c R F e e' l :=
  match h with
  | .name _ h => .name (H.assigned _ _) (h.faithful H)
  | .member h => .member h.renders
  | .index hs hb => .index hs.renders hb.renders
  | .raw h _ => .raw h (H.raw _ _)

theorem RendersList.renders (h : SlotsList s c F es es' l) : RendersList c R F es es' l :=
  match h with
  | .nil => .nil
  | .cons h hs => .cons h.renders hs.renders

theorem RendersProps.renders (h : SlotsProps s c F ps ps' l) : RendersProps c R F ps ps' l :=
  match h with
  | .nil => .nil
  | .cons h hs => .cons h.renders hs.renders

theorem RendersParam.renders (h : SlotsParam s c F e e' l) : RendersParam c R F e e' l :=
  match h with
  | .func h => .func h.renders
  | .function h => .function (H.function h)
  | .series h => .series (h.faithful H)
  | .offset hs h => .offset hs.renders (h.faithful H)
  | .value h => .value h.renders

theorem RendersParams.renders (h : SlotsParams s c F es es' l) : RendersParams c R F es es' l :=
  match h with
  | .nil => .nil
  | .cons h hs => .cons h.renders hs.renders

theorem RendersOpt.renders (h : SlotsOpt s c F e? e?' l) : RendersOpt c R F e? e?' l :=
  match h with
  | .none => .none
  | .some h => .some h.renders

theorem RendersFunc.renders (h : SlotsFunc s c F f f' l) : RendersFunc c R F f f' l :=
  match h with
  | .block h => .block h.renders
  | .expr h => .expr h.renders

theorem RendersStmt.renders (h : SlotsStmt s c F inside t stmts F' l) :
    RendersStmt c R F inside t stmts F' l :=
  match h with
  | .decl h => .decl h.renders
  | .expr h => .expr h.renders
  | .branch ht hs ha => .branch ht.renders hs.renders ha.renders
  | .forLoop _ hi ht hu hs => .forLoop (H.header _) hi.renders ht.renders hu.renders hs.renders
  | .rawLoop h hpattern => .rawLoop h hpattern
  | .whileLoop ht hs => .whileLoop ht.renders hs.renders
  | .block h => .block h.renders
  | .ret h => .ret h.renders
  | .func h => .func h.renders
  | .step h => .step h

theorem RendersStmts.renders (h : SlotsStmts s c F ts ts' F' l) : RendersStmts c R F ts ts' F' l :=
  match h with
  | .nil => .nil
  | .cons h hs => .cons h.renders hs.renders

theorem RendersAlternate.renders (h : SlotsAlternate s c F a a' l) :
    RendersAlternate c R F a a' l :=
  match h with
  | .none => .none
  | .some h => .some h.renders

theorem RendersDecls.renders (h : SlotsDecls s c F kind ds stmts F' l) :
    RendersDecls c R F kind ds stmts F' l :=
  match h with
  | .nil => .nil
  | .read hread hs => .read hread hs.renders
  | .slot _ hi hs => .slot (H.declared _) hi.renders hs.renders
  | .raw h hpattern hread hs => .raw h hpattern hread hs.renders

theorem RendersInit.renders (h : SlotsInit s c F e? e' l) : RendersInit c R F e? e' l :=
  match h with
  | .none => .none
  | .some h => .some h.renders
  | .element h => .element (h.faithful H)

theorem RendersHeader.renders (h : SlotsHeader s c F init init' F' l) :
    RendersHeader c R F init init' F' l :=
  match h with
  | .none => .none
  | .decl h => .decl h.renders
  | .expr h => .expr h.renders

theorem RendersCounters.renders (h : SlotsCounters s c F ds ds' F' l) :
    RendersCounters c R F ds ds' F' l :=
  match h with
  | .nil => .nil
  | .cons hi hs => .cons hi.renders hs.renders

end

/-- **Slotted scripts are renderings.** -/
theorem RendersBody.renders (h : SlotsBody s c F body body' l) : RendersBody c R F body body' l :=
  match h with
  | .block h => .block (h.renders H)
  | .expr h => .expr (h.renders H)

end Naming

end BarScript

import BarScript.Proofs.Arguments.Compiled
import BarScript.Proofs.Trace.Blame

/-!
# The keys of calls into `ta`

A stateful function of `ta` finds its state by a key at the end of its arguments, and
compiling adds the key. It goes by the way a call is written: `ta.f(…)`, or `c.ta.f(…)`
where `c` is the context. Whatever such a call is made on, it ends in a key. A run that is
refused for want of one has called the function in another way: through another name for
the namespace, or through a name for the function itself.
-/

namespace BarScript

open Machine Slotted Naming

/-- Whether a callee is written as a function of `ta`: under this name, unless the script
calls the context so, or as a field of the context. -/
def Expr.namesTa (root : String) : Expr → Bool
  | .member (.ident id) _ => id.name == "ta" && root != "ta"
  | .member (.member (.ident id) ns) _ => id.name == root && ns == "ta"
  | _ => false

/-- Whether a call is written as one of a function of `ta`. -/
def Expr.callsTa (root : String) : Expr → Bool
  | .call callee _ => callee.namesTa root
  | _ => false

/-- A script that leaves a name to the context: it gives it neither to a function nor to a
variable in the header of a loop. -/
structure Program.Leaves (p : Program) (x : String) : Prop where
  functions : x ∉ (p.stages {}).met.scopes.functions
  counters : x ∉ (p.stages {}).normal.root.counters

instance (p : Program) (x : String) : Decidable (p.Leaves x) :=
  decidable_of_iff (x ∉ (p.stages {}).met.scopes.functions ∧ x ∉ (p.stages {}).normal.root.counters)
    ⟨fun h => ⟨h.1, h.2⟩, fun h => ⟨h.functions, h.counters⟩⟩

namespace Arguments

/-- The shape of trees whose calls into `ta` end in a key. -/
def keyed (root : String) : Shape where
  expr
    | .call callee args => callee.namesTa root = true → ∃ k, args.getLast? = some (.str k)
    | _ => True
  name _ := True

theorem keyed_of_not_namesTa {callee : Expr} (h : callee.namesTa root = false) :
    (keyed root).expr (.call callee args) :=
  fun hta => by cases h.symm.trans hta

theorem keyed_of_isAtom (h : isAtom e = true) : (keyed root).expr e := by
  cases e with
  | call callee args => cases h
  | _ => trivial

/-! ## Open scopes -/

section Scopes

variable {x : String} {F : List Frame} {s : Scopes}

/-- A name that is left to the context is one of a slot, or supplied by the context. -/
theorem lookIn_of_not_counted (hF : ∀ f ∈ F, x ∉ f.loopVars) (hroot : s.root? ≠ some x)
    (hfunctions : x ∉ s.functions) (h : lookIn s F x = some r) :
    r = .contextBound ∨ ∃ b, r = .slot b := by
  rcases lookIn_cases h with ⟨f, hf, hr⟩ | ⟨hx, -⟩ | ⟨-, rfl⟩ | ⟨hx, -⟩
  · rcases resolve?_cases hr with ⟨hx, -⟩ | ⟨-, rfl⟩ | hslot
    · exact absurd hx (hF f hf)
    · exact .inl rfl
    · exact .inr hslot
  · exact absurd hx hroot
  · exact .inl rfl
  · exact absurd hx hfunctions

end Scopes

/-! ## Renderings -/

section Renderings

variable {s : Scopes} {c : Setting} {F : List Frame}

theorem namesTa_eq_true {callee : Expr} (h : callee.namesTa root = true) :
    (∃ id f, callee = .member (.ident id) f ∧ id.name = "ta" ∧ root ≠ "ta") ∨
      ∃ id f, callee = .member (.member (.ident id) "ta") f ∧ id.name = root := by
  unfold Expr.namesTa at h
  split at h
  · obtain ⟨hid, hroot⟩ := Bool.and_eq_true_iff.1 h
    exact .inl ⟨_, _, rfl, eq_of_beq hid, bne_iff_ne.1 hroot⟩
  · obtain ⟨hid, hns⟩ := Bool.and_eq_true_iff.1 h
    rw [eq_of_beq hns]
    exact .inr ⟨_, _, rfl, eq_of_beq hid⟩
  · cases h

/-- A callee that is written as a function of `ta` belongs to the namespace of this name,
if it belongs to one. -/
theorem space_eq_ta {callee : Expr} (hta : callee.namesTa c.root = true)
    (h : namespaceOf c { s with frames := F } callee = some ns) : ns = "ta" := by
  rcases namesTa_eq_true hta with ⟨id, f, rfl, hid, -⟩ | ⟨id, f, rfl, hid⟩
  · unfold namespaceOf at h
    dsimp only at h
    split at h
    · exact (Option.some.inj h).symm.trans hid
    · cases h
    · split at h
      · exact (Option.some.inj h).symm.trans hid
      · cases h
  · unfold namespaceOf at h
    dsimp only at h
    rw [hid, if_pos (beq_self_eq_true _)] at h
    exact (Option.some.inj h).symm

theorem ident_of_slots {id : Ident} (h : Slots s c F .value e (.ident id) l) :
    e = .ident id ∧ (isNumberName id.name = true ∨ ∀ b, lookIn s F id.name ≠ some (.slot b)) := by
  cases h with
  | atom h => cases h
  | name h =>
    cases h with
    | kept h =>
      refine ⟨rfl, h.imp_right ?_⟩
      rintro ⟨_, hr, hslot⟩
      exact hr.ne_slot hslot

theorem member_of_slots (h : Slots s c F .value e (.member base' f) l) :
    ∃ base, e = .member base f ∧ ∃ l, Slots s c F .value base base' l := by
  cases h with
  | atom h => cases h
  | name h => cases h
  | member h => exact ⟨_, rfl, _, h⟩

/-- A callee of no namespace is not rendered as a function of `ta`. -/
theorem namesTa_call (hF : ∀ f ∈ F, "ta" ∉ f.loopVars) (hroot : s.root? = some c.root)
    (hfunctions : "ta" ∉ s.functions) (hoptions : c.options = {})
    (hnone : namespaceOf c { s with frames := F } callee = none)
    (h : Slots s c F .value callee callee' l) : callee'.namesTa c.root = false := by
  refine Bool.eq_false_iff.2 fun hta => ?_
  rcases namesTa_eq_true hta with ⟨id, f, rfl, hid, hne⟩ | ⟨id, f, rfl, hid⟩
  · obtain ⟨base, rfl, _, h⟩ := member_of_slots h
    obtain ⟨rfl, hplain⟩ := ident_of_slots h
    rw [hid] at hplain
    have hslot := hplain.resolve_left (by decide)
    have hroot : s.root? ≠ some "ta" := fun h => hne (Option.some.inj (hroot.symm.trans h))
    unfold namespaceOf at hnone
    dsimp only at hnone
    rw [hid] at hnone
    cases hlook : lookIn s F "ta" with
    | none =>
      rw [show Scopes.resolve? { s with frames := F } "ta" = none from hlook, hoptions] at hnone
      cases hnone
    | some r =>
      rw [show Scopes.resolve? { s with frames := F } "ta" = some r from hlook] at hnone
      rcases lookIn_of_not_counted hF hroot hfunctions hlook with rfl | ⟨b, rfl⟩
      · cases hnone
      · exact hslot b hlook
  · obtain ⟨base, rfl, _, h⟩ := member_of_slots h
    obtain ⟨base, rfl, _, h⟩ := member_of_slots h
    obtain ⟨rfl, -⟩ := ident_of_slots h
    unfold namespaceOf at hnone
    dsimp only at hnone
    rw [hid, if_pos (beq_self_eq_true _)] at hnone
    cases hnone

/-- Functions of the context are not written as functions of `ta`. -/
theorem keyed_contextCall (name : String) (args : List Expr) :
    (keyed c.root).expr (c.contextCall name args) :=
  keyed_of_not_namesTa (Bool.and_not_self (c.root == "ta"))

/-- **Slotted scripts** end their calls into `ta` in a key. -/
theorem keyed_keeping (hroot : s.root? = some c.root) (hfunctions : "ta" ∉ s.functions)
    (hoptions : c.options = {}) :
    Keeping s c (fun f => "ta" ∉ f.loopVars) (· ≠ "ta") (fun _ => True) Shape.any (keyed c.root)
      where
  enter _ _ h := by cases h
  hand _ hf := hf
  count _ hx hf hmem := (List.mem_insert_iff.1 hmem).elim (fun h => hx h.symm) hf
  declare _ _ _ hf := hf
  parts _ := ⟨trivial, trivial⟩
  kept h := by
    rw [hoptions] at h
    cases h
  name _ := trivial
  named _ _ := trivial
  decls _ _ _ _ _ := trivial
  expr hF _ _ h := by
    cases h with
    | spaceCall hns ha hk =>
      intro hta
      have hns := space_eq_ta hta hns
      cases hk with
      | primary h => exact ⟨_, List.getLast?_concat⟩
      | other h =>
        rw [hoptions] at h
        exact absurd hns h
    | call hns hcallee ha =>
      exact keyed_of_not_namesTa (namesTa_call hF hroot hfunctions hoptions hns hcallee)
    | name h => cases h <;> trivial
    | atom h => exact keyed_of_isAtom h
    | _ => trivial
  target _ _ _ h := by
    cases h with
    | name _ h => cases h <;> trivial
    | raw h =>
      rw [hoptions] at h
      cases h
    | _ => trivial
  param _ _ _ h := by
    cases h with
    | func h => trivial
    | function h => trivial
    | _ => exact keyed_contextCall _ _
  use _ _ h := by
    cases h with
    | current => exact ⟨trivial, ⟨trivial, trivial, trivial⟩, trivial⟩
    | history => exact ⟨trivial, trivial, trivial⟩
    | kept => trivial
  path h _ := by
    refine path_all (fun {e} h => ?_) h
    cases e with
    | call callee args => exact h.elim
    | _ => trivial
  atom h _ := keyed_of_isAtom h
  field _ := ⟨trivial, trivial⟩
  slot _ _ := ⟨trivial, trivial, trivial⟩
  undefined := trivial
  key _ := trivial
  element _ _ := trivial
  precision _ := keyed_contextCall _ _
  init _ _ := ⟨keyed_contextCall _ _, trivial⟩

end Renderings

/-! ## Keys without positions and equality operators -/

section Forms

variable (root : String)

theorem namesTa_tolerant (e : Expr) : (e.tolerant root).namesTa root = e.namesTa root := by
  have hbinary : ∀ op left right, (∃ callee args, Expr.tolerant root (.binary op left right) =
      .call callee args) ∨ ∃ l r, Expr.tolerant root (.binary op left right) = .binary op l r := by
    intro op left right
    unfold Expr.tolerant
    split
    · exact .inl ⟨_, _, rfl⟩
    · exact .inr ⟨_, _, rfl⟩
  cases e with
  | member base f =>
    cases base with
    | member base ns =>
      cases base with
      | binary op left right =>
        show Expr.namesTa root (.member (.member (Expr.tolerant root _) ns) f) = _
        obtain ⟨_, _, h⟩ | ⟨_, _, h⟩ := hbinary op left right <;> rw [h] <;> rfl
      | _ => rfl
    | binary op left right =>
      show Expr.namesTa root (.member (Expr.tolerant root _) f) = _
      obtain ⟨_, _, h⟩ | ⟨_, _, h⟩ := hbinary op left right <;> rw [h] <;> rfl
    | _ => rfl
  | binary op left right =>
    obtain ⟨_, _, h⟩ | ⟨_, _, h⟩ := hbinary op left right <;> rw [h] <;> rfl
  | _ => rfl

theorem getLast?_listTolerant {es : List Expr} (h : es.getLast? = some (.str k)) :
    (Expr.listTolerant root es).getLast? = some (.str k) := by
  match es with
  | [e] =>
    cases h
    rfl
  | _ :: e :: rest =>
    show (Expr.listTolerant root (e :: rest)).getLast? = _
    exact getLast?_listTolerant h

theorem keyed_tolerant : Equality.Keeps root (keyed root) where
  plain {e} _ hcall _ := by
    cases e with
    | call callee args => exact absurd rfl (hcall callee args)
    | _ => trivial
  call {callee args} h hta := by
    obtain ⟨k, hk⟩ := h ((namesTa_tolerant root callee).symm.trans hta)
    exact ⟨k, getLast?_listTolerant root hk⟩
  binary _ := trivial
  equality _ := keyed_of_not_namesTa (Bool.and_eq_false_imp.2 fun _ => rfl)
  assign _ := trivial
  update _ := trivial

theorem namesTa_bare (e : Expr) : e.bare.namesTa root = e.namesTa root := by
  cases e with
  | member base f =>
    cases base with
    | member base ns => cases base <;> rfl
    | _ => rfl
  | _ => rfl

theorem getLast?_listBare (es : List Expr) (k : String) :
    (Expr.listBare es).getLast? = some (.str k) ↔ es.getLast? = some (.str k) := by
  match es with
  | [] => exact Iff.rfl
  | [e] =>
    show some e.bare = some (.str k) ↔ some e = some (.str k)
    cases e <;> simp [Expr.bare]
  | _ :: e :: rest => exact getLast?_listBare (e :: rest) k

theorem keyed_ignoresPositions : (keyed root).IgnoresPositions where
  expr e := by
    cases e with
    | call callee args =>
      show (callee.bare.namesTa root = true → _) ↔ (callee.namesTa root = true → _)
      rw [namesTa_bare]
      exact imp_congr_right fun _ => exists_congr fun k => getLast?_listBare args k
    | _ => exact Iff.rfl
  decls _ := Iff.rfl
  named _ := Iff.rfl

end Forms

/-! ## Runs -/

section Runs

variable {host : TracedHost} {ρ : Env} {m m' : Machine} {es : List Expr} {args : List Argument}

/-- Arguments that are written with a text at their end have it at their end. -/
theorem getLast?_traceArgs (hk : es.getLast? = some (.str k))
    (h : (Expr.traceArgs host ρ es m).2 = .ok args m') :
    (args.map Argument.value).getLast? = some (.str k) := by
  induction es generalizing m args with
  | nil => cases hk
  | cons e rest ih =>
    obtain ⟨v, m₁, args', hv, hrest, rfl⟩ := traceArgs_cons h
    cases rest with
    | nil =>
      cases hk
      cases hv
      cases hrest
      rfl
    | cons e' rest =>
      have hlast := ih hk hrest
      cases args' with
      | nil => cases hlast
      | cons a args' => exact hlast

theorem key_of_getLast? {vs : List Value} (h : vs.getLast? = some (.str k)) :
    (Library.splitKey vs).2 = some k := by
  unfold Library.splitKey
  rw [h]

/-- What is told of calls: those written as functions of `ta` have a key. -/
def HasKey (root : String) : Event → Prop
  | .native site _ _ _ args => site.callsTa root = true →
    ∃ k, (Library.splitKey (args.map Argument.value)).2 = some k
  | _ => True

theorem watches_keys (root : String) :
    Upkeep.Watches (upkeep (keyed root) fun _ => trivial) (HasKey root) where
  history _ := trivial
  touch _ := trivial
  name _ _ := trivial
  wrapped _ _ := trivial
  native _ hcall hargs _ _ _ hta := by
    obtain ⟨k, hk⟩ := hcall hta
    exact ⟨k, key_of_getLast? (getLast?_traceArgs hk hargs)⟩

end Runs

end Arguments

/-- **Calls that are written as functions of `ta` carry their keys**, and only other calls
miss them. Take a script that leaves the name `ta` to the context, compile it, and run what
reads like the result on any candles, under any settings. Then every call of a namespace
function that is written `ta.f(…)`, or `c.ta.f(…)` with the name of the context, ends in a
key, wherever the script got the namespace from. And if the run is refused for want of a
key, then its trace tells of a stateful function of `ta` that was called without one, by a
call that is written in neither way. -/
theorem written_calls_carry_keys {p q b : Program} {counters : Counters} (hp : p.Leaves "ta")
    (hq : p.compiled {} = .ok (q, counters)) (hb : b.bare = q.bare) (receiver : Json)
    (config : Config) (candles : List Candle) :
    (∀ site ns f m args,
      Event.native site ns f m args ∈ (Indicator.ofProgram b receiver).trace config candles →
      site.callsTa p.rootParam = true →
      ∃ k, (Library.splitKey (args.map Argument.value)).2 = some k) ∧
    ∀ function m', (Indicator.ofProgram b receiver).rows candles
        ((Indicator.ofProgram b receiver).machine config) =
          .error (.error (.invalidArgument function .noCallId)) m' →
      ∃ site f m args,
        Event.native site .ta f m args ∈ (Indicator.ofProgram b receiver).trace config candles ∧
        Library.keepsState f = true ∧ function = "ta." ++ f ∧
        (Library.splitKey (args.map Argument.value)).2 = none ∧
        site.callsTa p.rootParam = false := by
  have hroot : (p.stages {}).met.scopes.root? = some p.rootParam :=
    congrArg (·.2.1) (normal_fixed p)
  obtain ⟨body, rfl, hall, -⟩ := Naming.compiled_shaped hq
    (Arguments.keyed_keeping (c := ⟨{}, p.rootParam⟩) hroot hp.functions rfl)
      (NormalForm.keeps_any _ _)
    (FuncBody.all_any _) (fun _ _ _ => trivial) (fun x hx hta => hp.counters (hta ▸ hx))
    (Arguments.keyed_tolerant _)
  have hbody : b.root.body.All (Arguments.keyed p.rootParam) :=
    Program.all_of_bare (Arguments.keyed_ignoresPositions _) hb hall
  have hkeys : ∀ e ∈ (Indicator.ofProgram b receiver).trace config candles,
      Arguments.HasKey p.rootParam e :=
    (Upkeep.clean_rows (Arguments.watches_keys p.rootParam) (Arguments.script _ hbody)
      (fun w => ⟨rfl, Tame.fits_receiver b receiver⟩) candles
      ((Indicator.ofProgram b receiver).machine config)
      ⟨rfl, rfl, Arguments.kept_machine b receiver config⟩).1
  refine ⟨fun site ns f m args h => hkeys _ h, fun function m' hend => ?_⟩
  have herased := Traced.rows_erases (Indicator.ofProgram b receiver) candles
    ((Indicator.ofProgram b receiver).machine config)
  rw [hend] at herased
  have htraced : (Traced.rows (Indicator.ofProgram b receiver) candles
      ((Indicator.ofProgram b receiver).machine config)).2 =
        .error (.error (.invalidArgument function .noCallId)) m' := by
    revert herased
    generalize (Traced.rows _ candles _).2 = ending
    intro herased
    cases ending with
    | ok a m₁ => cases herased
    | error e m₁ =>
      cases herased
      rfl
  obtain ⟨e, he, hkeyless⟩ := (Traced.blaming.rows _ candles).1 _ function m' htraced
  match e, hkeyless with
  | .native site ns f m args, ⟨hns, hstate, hf, hkey⟩ =>
    subst hns
    refine ⟨site, f, m, args, he, hstate, hf, hkey, Bool.eq_false_iff.2 fun hta => ?_⟩
    obtain ⟨k, hk⟩ := hkeys _ he hta
    cases hkey.symm.trans hk

/-- Whether a call of a namespace function that is written as one of `ta` is told of, and
is of one that keeps state. -/
def Event.isWritten (root : String) : Event → Bool
  | .native site .ta f _ _ => site.callsTa root && Library.keepsState f
  | _ => false

theorem Event.exists_of_isWritten {e : Event} (h : e.isWritten root = true) :
    ∃ site f m args, e = .native site .ta f m args ∧ site.callsTa root = true ∧
      Library.keepsState f = true := by
  unfold Event.isWritten at h
  split at h
  · obtain ⟨hsite, hf⟩ := Bool.and_eq_true_iff.1 h
    exact ⟨_, _, _, _, rfl, hsite, hf⟩
  · cases h

/-- A function of a namespace that is taken out of the context:
`c => { const { ta } = c; const { close } = c.data; return ta.cum(close) }`. -/
def writtenText : String :=
  "c => \x7b const \x7b ta \x7d = c; const \x7b close \x7d = c.data; return ta.cum(close) \x7d"

set_option maxRecDepth 100000 in
theorem written_calls_carry_keys_taken_out :
    ∃ p q counters, parse writtenText = .ok p ∧ p.Leaves "ta" ∧
      p.compiled {} = .ok (q, counters) ∧ q.bare = q.bare ∧
      ∃ site f m args,
        Event.native site .ta f m args ∈ (Indicator.ofProgram q .null).trace {} [.flat 1 1] ∧
        Library.keepsState f = true ∧ site.callsTa p.rootParam = true ∧
        ∃ k, (Library.splitKey (args.map Argument.value)).2 = some k := by
  have h : Except.gives (fun p => decide (p.Leaves "ta") &&
      Except.gives (fun r => ((Indicator.ofProgram r.1 .null).trace {} [.flat 1 1]).any
        (Event.isWritten p.rootParam)) (p.compiled {})) (parse writtenText) = true := by
    refine gives_parse String.toList_ofList ?_
    decide +kernel
  obtain ⟨p, hparse, h⟩ := Except.exists_of_gives h
  obtain ⟨hleaves, h⟩ := Bool.and_eq_true_iff.1 h
  obtain ⟨⟨q, counters⟩, hq, h⟩ := Except.exists_of_gives h
  obtain ⟨e, he, hwritten⟩ := List.any_eq_true.1 h
  obtain ⟨site, f, m, args, rfl, hsite, hf⟩ := Event.exists_of_isWritten hwritten
  have hleaves := of_decide_eq_true hleaves
  exact ⟨p, q, counters, hparse, hleaves, hq, rfl, site, f, m, args, he, hf, hsite,
    (written_calls_carry_keys hleaves hq rfl .null {} _).1 site .ta f m args he hsite⟩

/-- Whether a run is refused for want of a key. -/
def Ending.wantsKey {α : Type} : Ending α → Bool
  | .error (.error (.invalidArgument _ .noCallId)) _ => true
  | _ => false

theorem Ending.exists_of_wantsKey {r : Ending α} (h : r.wantsKey = true) :
    ∃ f m, r = .error (.error (.invalidArgument f .noCallId)) m := by
  unfold Ending.wantsKey at h
  split at h
  · exact ⟨_, _, rfl⟩
  · cases h

/-- A namespace under another name:
`c => { const t = c.ta; const { close } = c.data; return t.cum(close) }`. -/
def renamedText : String :=
  "c => \x7b const t = c.ta; const \x7b close \x7d = c.data; return t.cum(close) \x7d"

set_option maxRecDepth 100000 in
/-- A stateful function that is called through another name for its namespace gets no key,
and the run is refused. -/
theorem renamed_namespace_wants_key :
    ∃ p q counters, parse renamedText = .ok p ∧ p.compiled {} = .ok (q, counters) ∧
      ∃ f m, (Indicator.ofProgram q .null).rows [.flat 1 1]
        ((Indicator.ofProgram q .null).machine {}) =
          .error (.error (.invalidArgument f .noCallId)) m := by
  have h : Except.gives (fun p => Except.gives (fun r =>
      Ending.wantsKey ((Indicator.ofProgram r.1 .null).rows [.flat 1 1]
        ((Indicator.ofProgram r.1 .null).machine {}))) (p.compiled {}))
      (parse renamedText) = true := by
    refine gives_parse String.toList_ofList ?_
    decide +kernel
  obtain ⟨p, hparse, h⟩ := Except.exists_of_gives h
  obtain ⟨⟨q, counters⟩, hq, h⟩ := Except.exists_of_gives h
  exact ⟨p, q, counters, hparse, hq, Ending.exists_of_wantsKey h⟩

end BarScript

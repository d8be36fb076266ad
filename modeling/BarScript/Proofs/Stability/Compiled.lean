import BarScript.Proofs.Naming.Shaped
import BarScript.Proofs.RoundTrip.Grammatical
import BarScript.Proofs.Stability.Bars

/-!
# Slots of compiled scripts go from bar to bar

Compiling turns a script that assigns to names only into a tame one: what it
assigns to becomes the current bar of a slot or stays a name, and its
declarations become declarations of slots. The context keeps its name all the
way, since no scope knows that name and temporaries avoid it. So the slots of a
compiled script are kept from bar to bar.
-/

namespace BarScript

open Machine

namespace Tame

variable {root : String}

/-- The shape of scripts that assign to names only and bind no name that is the
context's. -/
def source (root : String) : Shape where
  expr
    | .assign _ target _ => ∃ id, target = .ident id
    | .update _ _ target => ∃ id, target = .ident id
    | _ => True
  name x := x ≠ root

def isName : Expr → Bool
  | .ident _ => true
  | _ => false

theorem isName_iff : isName e = true ↔ ∃ id, e = .ident id := by
  cases e <;> simp [isName]

instance (e : Expr) : Decidable (∃ id, e = .ident id) :=
  decidable_of_iff _ isName_iff

instance : DecidablePred (source root).expr
  | .assign _ target _ => inferInstanceAs (Decidable (∃ id, target = .ident id))
  | .update _ _ target => inferInstanceAs (Decidable (∃ id, target = .ident id))
  | .number _ | .str _ | .bool _ | .null | .undefined | .ident _ | .this | .member .. | .index ..
  | .call .. | .unary .. | .binary .. | .logical .. | .conditional .. | .array _ | .object _
  | .func _ => isTrue trivial

instance : DecidablePred (source root).name := fun x => inferInstanceAs (Decidable (x ≠ root))

instance : DecidablePred (source root).decls := fun _ => isTrue trivial

instance : DecidablePred (source root).named := fun _ => isTrue trivial

/-- A scope that does not know the name of the context. -/
def Clear (root : String) (f : Frame) : Prop :=
  f.resolve? root = none

namespace Clear

variable {f : Frame} {x : String}

theorem hand (hx : x ≠ root) (hf : Clear root f) :
    Clear root { f with bound := f.bound.insert x } := by
  unfold Clear at hf ⊢
  rw [Frame.resolve?_eq_none] at hf ⊢
  exact ⟨hf.1, by simpa [hx.symm] using hf.2.1, hf.2.2⟩

theorem count (hx : x ≠ root) (hf : Clear root f) :
    Clear root { f with loopVars := f.loopVars.insert x } := by
  unfold Clear at hf ⊢
  rw [Frame.resolve?_eq_none] at hf ⊢
  exact ⟨by simpa [hx.symm] using hf.1, hf.2⟩

theorem declare (b : Binding) (hx : x ≠ root) (hf : Clear root f) :
    Clear root { f with vars := (x, b) :: f.vars } := by
  unfold Clear at hf ⊢
  rw [Frame.resolve?_eq_none] at hf ⊢
  refine ⟨hf.1, hf.2.1, ?_⟩
  rw [List.lookup_cons, beq_false_of_ne hx.symm]
  exact hf.2.2

end Clear

/-! ## What is assigned to -/

section Targets

open Slotted Naming

variable {s : Scopes} {c : Setting} {F : List Frame}

/-- What a script may assign to is not the context. -/
theorem ne_root_of_assignable (hF : ∀ f ∈ F, Clear root f) (h : Assignable s F x) : x ≠ root := by
  rintro rfl
  have hr : ∃ r, lookIn s F x = some r ∧ (r = .loop ∨ ∃ b, r = .slot b) := by
    rcases h with h | ⟨b, h⟩
    · exact ⟨_, h, .inl rfl⟩
    · exact ⟨_, h, .inr ⟨b, rfl⟩⟩
  obtain ⟨r, hr, hslot⟩ := hr
  rcases lookIn_cases hr with ⟨f, hf, hr⟩ | ⟨-, rfl⟩ | ⟨-, rfl⟩ | ⟨-, rfl⟩
  · cases (hF f hf).symm.trans hr
  -- what is settled by the script as a whole is neither
  all_goals exact hslot.elim nofun nofun

theorem target_current (c : Setting) (b : Binding) : Target c.root (c.current b) :=
  have hroot : (⟨c.root, {}⟩ : Ident).name = c.root := rfl
  .slot hroot b.bucket b.slot

/-- An assigned name becomes a target of a tame script. -/
theorem assignedName_target (hpolicy : c.options.unsupported = .strict)
    (hF : ∀ f ∈ F, Clear c.root f) {id : Ident} {t' : Expr} {l : Log}
    (h : SlotsTarget s c F (.ident id) t' l) : Target c.root t' := by
  cases h with
  | name ha h =>
    cases h with
    | current => exact target_current c _
    | kept => exact .name (ne_root_of_assignable hF ha)
  | raw h => cases hpolicy.symm.trans h

end Targets

variable {e : Expr} {options : Options} {id : Ident} {b p q : Program} {counters : Counters}

/-! ## Passes -/

theorem plain (h : e.IsPlain) : (shape root).expr e := by
  cases e with
  | assign | update => exact h.elim
  | _ => trivial

theorem normal_keeps (hroot : root ∈ names) : NormalForm.Keeps root names (source root) where
  expr {e} p he := by
    cases e with
    | assign op t v =>
      obtain ⟨id, rfl⟩ := he
      exact ⟨id, rfl⟩
    | update op first t =>
      obtain ⟨id, rfl⟩ := he
      exact ⟨id, rfl⟩
    | _ => trivial
  temp _ hi := fun h => hi (h ▸ hroot)

theorem slotted_keeps (hpolicy : options.unsupported = .strict) :
    Naming.Forms s ⟨options, root⟩ (Clear root) (source root) (shape root) where
  enter _ _ := rfl
  hand := Clear.hand
  count := Clear.count
  declare _ _ hx hf := hf.declare _ hx
  kept h := by cases hpolicy.symm.trans h
  name hx := hx
  decls _ _ _ _ _ := trivial
  plain := plain
  ident _ := trivial
  member _ := trivial
  context := trivial
  field _ _ := trivial
  slot _ _ _ := trivial
  fresh _ _ _ := trivial
  number _ := trivial
  zero := trivial
  declared b e :=
    have hroot : (⟨root, {}⟩ : Ident).name = root := rfl
    .declared hroot hroot hroot b.bucket b.slot e
  assign v' hF he ht := by
    obtain ⟨id, rfl⟩ := he
    exact .target (assignedName_target hpolicy hF ht)
  update hF he ht := by
    obtain ⟨id, rfl⟩ := he
    exact assignedName_target hpolicy hF ht
  func _ _ := trivial
  named _ _ := trivial

theorem tolerant_keeps : Equality.Keeps root (shape root) where
  plain h _ _ := plain h
  call _ := plain trivial
  binary _ := plain trivial
  equality _ := plain trivial
  assign h := by
    cases h with
    | target h =>
      cases h with
      | name h => exact .target (.name h)
      | slot h b slot => exact .target (.slot h b slot)
    | declared h h' h'' b slot e => exact .declared h h' h'' b slot (e.tolerant root)
  update h := by
    cases h with
    | name h => exact .name h
    | slot h b slot => exact .slot h b slot

/-! ## Positions -/

theorem bare_eq_ident (h : e.bare = .ident id) : ∃ id', e = .ident id' ∧ id'.name = id.name := by
  cases e with
  | ident id' =>
    cases h
    exact ⟨id', rfl, rfl⟩
  | _ => cases h

theorem bare_eq_member {base : Expr} {property : String} (h : e.bare = .member base property) :
    ∃ base', e = .member base' property ∧ base'.bare = base := by
  cases e with
  | member base' property' =>
    cases h
    exact ⟨base', rfl, rfl⟩
  | _ => cases h

theorem bare_eq_slotOf {b : Bucket} {slot : String} (h : e.bare = .slotOf id b slot) :
    ∃ id', e = .slotOf id' b slot ∧ id'.name = id.name := by
  obtain ⟨_, rfl, hslots⟩ := bare_eq_member h
  obtain ⟨_, rfl, hroot⟩ := bare_eq_member hslots
  obtain ⟨id', rfl, hid⟩ := bare_eq_ident hroot
  exact ⟨id', rfl, hid⟩

theorem target_bare : Target root e.bare ↔ Target root e := by
  constructor
  · intro h
    generalize he : e.bare = e' at h
    cases h with
    | name h =>
      obtain ⟨id, rfl, hid⟩ := bare_eq_ident he
      exact .name (hid ▸ h)
    | slot h b slot =>
      cases e with
      | index base sub =>
        obtain ⟨hbase, hsub⟩ := Expr.index.inj he
        obtain ⟨id, rfl, hid⟩ := bare_eq_slotOf hbase
        cases sub with
        | number x =>
          cases hsub
          exact .slot (hid.trans h) b slot
        | _ => cases hsub
      | _ => cases he
  · intro h
    cases h with
    | name h =>
      have hname : ∀ id : Ident, id.name ≠ root → id.bare.name ≠ root := fun _ h => h
      exact .name (hname _ h)
    | slot h b slot =>
      have hroot : ∀ id : Ident, id.name = root → id.bare.name = root := fun _ h => h
      exact .slot (hroot _ h) b slot

theorem assignment_bare {t v : Expr} :
    Assignment root op t.bare v.bare ↔ Assignment root op t v := by
  constructor
  · intro h
    generalize ht : t.bare = t' at h
    generalize hv : v.bare = v' at h
    cases h with
    | target h =>
      rw [← ht] at h
      exact .target (target_bare.1 h)
    | declared h h' h'' b slot e =>
      obtain ⟨id, rfl, hid⟩ := bare_eq_slotOf ht
      cases v with
      | call callee args =>
        obtain ⟨hcallee, hargs⟩ := Expr.call.inj hv
        obtain ⟨_, rfl, hroot⟩ := bare_eq_member hcallee
        obtain ⟨id', rfl, hid'⟩ := bare_eq_ident hroot
        match args with
        | [s, init] =>
          obtain ⟨hs, -⟩ := List.cons.inj hargs
          obtain ⟨id'', rfl, hid''⟩ := bare_eq_slotOf hs
          exact .declared (hid.trans h) (hid'.trans h') (hid''.trans h'') b slot init
        | [] | [_] | _ :: _ :: _ :: _ => simp [Expr.listBare] at hargs
      | _ => cases hv
  · intro h
    cases h with
    | target h => exact .target (target_bare.2 h)
    | declared h h' h'' b slot e =>
      have hroot : ∀ id : Ident, id.name = root → id.bare.name = root := fun _ h => h
      exact .declared (hroot _ h) (hroot _ h') (hroot _ h'') b slot e.bare

theorem ignoresPositions : (shape root).IgnoresPositions where
  expr e := by
    cases e with
    | assign op t v => exact assignment_bare
    | update op first t => exact target_bare
    | _ => exact Iff.rfl
  decls _ := Iff.rfl
  named _ := Iff.rfl

/-- What reads like a compiled script is handed the context under its own name and has
the shape of compiled scripts, if no more has to be known of the scopes than that none has
the name of the context. -/
theorem compiled_reads (hnormal : ∀ {names}, p.rootParam ∈ names → NormalForm.Keeps p.rootParam
    names S)
    (hslotted : Naming.Forms (p.stages options).met.scopes ⟨options, p.rootParam⟩
      (Clear p.rootParam) S T) (htolerant : Equality.Keeps p.rootParam T) (hT : T.IgnoresPositions)
    (hparams : p.root.params.length = 1) (hp : p.root.body.All S)
    (hq : p.compiled options = .ok (q, counters)) (hb : b.bare = q.bare) :
    (∃ id : Ident, id.name = p.rootParam ∧ b.root.params = [id]) ∧ b.root.body.All T := by
  obtain ⟨⟨name, params, body, style, pos⟩⟩ := p
  obtain ⟨id, rfl⟩ := List.length_eq_one_iff.1 hparams
  have hmem : id.name ∈ (Func.mk name [id] body style pos).names := by
    cases body <;> exact List.mem_append_left _ (List.mem_append_right _ List.mem_cons_self)
  obtain ⟨body', rfl, hbody, -⟩ := Naming.compiled_shaped hq hslotted.keeping
    (hnormal (Scopes.mem_reserve hmem)) hp (fun _ _ _ => trivial) (fun _ _ => trivial) htolerant
  refine ⟨?_, Program.all_of_bare hT hb hbody⟩
  obtain ⟨⟨bname, bparams, bbody, bstyle, bpos⟩⟩ := b
  simp only [Program.bare, Func.bare, Program.mk.injEq, Func.mk.injEq] at hb
  obtain ⟨id', rfl, hid'⟩ := List.map_eq_singleton_iff.1 hb.2.1
  have hname : id'.bare.name = id.bare.name := congrArg Ident.name hid'
  exact ⟨id', hname, rfl⟩

/-- **Compiled scripts are tame**, and so is what reads like one. -/
theorem script_of_compiled (hpolicy : options.unsupported = .strict)
    (hparams : p.root.params.length = 1) (hp : p.root.body.All (source p.rootParam))
    (hq : p.compiled options = .ok (q, counters)) (hb : b.bare = q.bare) : Script p.rootParam b :=
  let ⟨hroot, hbody⟩ := compiled_reads normal_keeps (slotted_keeps hpolicy) tolerant_keeps
    ignoresPositions hparams hp hq hb
  ⟨hroot, hbody⟩

end Tame

/-! ## Slots from bar to bar -/

/-- **Slots of compiled scripts go from bar to bar.** Take a script that assigns to
names only and never binds the name of its context, compile it strictly, and run
what reads like the result on a series of candles of any length, with any settings.
Then one more bar keeps every slot and what it held one place further back, starts
new slots with one value, and leaves the value of the bar before in slots whose history
the trace of the script does not reach, wherever in the script they are declared. -/
theorem compiled_slots_carry_over {text : String} {options : Options} {p q b : Program}
    {counters : Counters} (hstrict : options.unsupported = .strict) (hparse : parse text = .ok p)
    (hsource : p.root.body.All (Tame.source p.rootParam))
    (hq : p.compiled options = .ok (q, counters)) (hb : b.bare = q.bare)
    (receiver : Json) (config : Config) {candles : List Candle} {candle : Candle}
    {o o' : Output} {m m₀ m' : Machine}
    (hrun : (Indicator.ofProgram b receiver).record candles {}
      ((Indicator.ofProgram b receiver).machine config) = .ok o m)
    (hbegin : beginStep candle m = .ok () m₀)
    (hstep : (Indicator.ofProgram b receiver).step candle o m = .ok o' m') :
    SlotsKept (Traced.run (Indicator.ofProgram b receiver).receiver b m₀).1 m m' := by
  have hscript := Tame.script_of_compiled hstrict (parse_params hparse) hsource hq hb
  rw [Indicator.record_eq, ← bind_pure_comp] at hrun
  rw [Indicator.step_eq, ← bind_pure_comp] at hstep
  obtain ⟨rows, m₁, hrows, hrecorded⟩ := Exec.bind_eq_ok hrun
  obtain ⟨s, m₁', hbar, hrecorded'⟩ := Exec.bind_eq_ok hstep
  cases hrecorded
  cases hrecorded'
  exact hscript.slotsKept receiver config hrows hbegin hbar

/-- A script with a function that declares a slot and calls itself:
`c => { function f(n) { let d = n; return n ? f(d = null) : d } return f(1) }`. -/
def recursiveText : String :=
  "c => \x7b function f(n) \x7b let d = n; return n ? f(d = null) : d \x7d return f(1) \x7d"

set_option maxRecDepth 100000 in
theorem compiled_slots_carry_over_recursive :
    ∃ p q counters o o' m m₀ m', Options.unsupported {} = .strict ∧
      parse recursiveText = .ok p ∧
      p.root.body.All (Tame.source p.rootParam) ∧ p.compiled {} = .ok (q, counters) ∧
      q.bare = q.bare ∧
      (Indicator.ofProgram q .null).record [.flat 1 1] {}
        ((Indicator.ofProgram q .null).machine {}) = .ok o m ∧
      beginStep (.flat 2 1) m = .ok () m₀ ∧
      (Indicator.ofProgram q .null).step (.flat 2 1) o m = .ok o' m' ∧
      SlotsKept (Traced.run (Indicator.ofProgram q .null).receiver q m₀).1 m m' := by
  have h : Except.gives (fun p => decide (p.root.body.All (Tame.source p.rootParam)) &&
      Except.gives (fun r => Ending.gives (fun o m =>
          Ending.gives (fun _ _ => Ending.gives (fun _ _ => true)
            ((Indicator.ofProgram r.1 .null).step (.flat 2 1) o m)) (beginStep (.flat 2 1) m))
        ((Indicator.ofProgram r.1 .null).record [.flat 1 1] {}
          ((Indicator.ofProgram r.1 .null).machine {}))) (p.compiled {}))
      (parse recursiveText) = true := by
    refine gives_parse String.toList_ofList ?_
    decide +kernel
  obtain ⟨p, hparse, h⟩ := Except.exists_of_gives h
  obtain ⟨hsource, h⟩ := Bool.and_eq_true_iff.1 h
  obtain ⟨⟨q, counters⟩, hq, h⟩ := Except.exists_of_gives h
  obtain ⟨o, m, hrun, h⟩ := Ending.exists_of_gives h
  obtain ⟨⟨⟩, m₀, hbegin, h⟩ := Ending.exists_of_gives h
  obtain ⟨o', m', hstep, -⟩ := Ending.exists_of_gives h
  have hsource := of_decide_eq_true hsource
  exact ⟨p, q, counters, o, o', m, m₀, m', rfl, hparse, hsource, hq, rfl, hrun, hbegin, hstep,
    compiled_slots_carry_over rfl hparse hsource hq rfl .null {} hrun hbegin hstep⟩

/-- A script with a pattern key that holds an assignment to its slot:
`c => { const { "a } = c.data; c.let.glb1_y = 7; const { b": x } = c.data; let y = 1; return y }`.
-/
def keyText : String :=
  "c => \x7b const \x7b \"a \x7d = c.data; c.let.glb1_y = 7; " ++
    "const \x7b b\": x \x7d = c.data; let y = 1; return y \x7d"

set_option maxRecDepth 100000 in
/-- Keys of object patterns are written as they are, so a key may hold statements
that assign over a slot. Then reading back does not give what was compiled, and a
bar does not keep what the slot held. -/
theorem key_text_restarts_slot :
    ∃ p a b o o' m m₀ m', parse keyText = .ok p ∧
      p.root.body.All (Tame.source p.rootParam) ∧ compile {} keyText = .ok a ∧
      a.program = .ok b ∧
      (Indicator.ofProgram b .null).record [.flat 1 1] {}
        ((Indicator.ofProgram b .null).machine {}) = .ok o m ∧
      beginStep (.flat 2 1) m = .ok () m₀ ∧
      (Indicator.ofProgram b .null).step (.flat 2 1) o m = .ok o' m' ∧
      ¬ SlotsKept (Traced.run (Indicator.ofProgram b .null).receiver b m₀).1 m m' := by
  have hsource : Except.gives (fun p => decide (p.root.body.All (Tame.source p.rootParam)))
      (parse keyText) = true := by
    refine gives_parse (toList_append_of String.toList_ofList String.toList_ofList) ?_
    decide +kernel
  have h : Except.gives (fun a => Except.gives (fun b => Ending.gives (fun o m =>
          Ending.gives (fun _ _ => Ending.gives (fun _ m' =>
              (m.slotValues? .let "glb1_y").map List.length == some 1 &&
              (m'.slotValues? .let "glb1_y").map List.length == some 1 &&
              m.context.config.maxHistory == none)
            ((Indicator.ofProgram b .null).step (.flat 2 1) o m)) (beginStep (.flat 2 1) m))
        ((Indicator.ofProgram b .null).record [.flat 1 1] {}
          ((Indicator.ofProgram b .null).machine {}))) a.program) (compile {} keyText) = true := by
    refine gives_program (toList_append_of String.toList_ofList String.toList_ofList) ?_
    decide +kernel
  obtain ⟨p, hparse, hsource⟩ := Except.exists_of_gives hsource
  obtain ⟨a, ha, h⟩ := Except.exists_of_gives h
  obtain ⟨b, hb, h⟩ := Except.exists_of_gives h
  obtain ⟨o, m, hrun, h⟩ := Ending.exists_of_gives h
  obtain ⟨⟨⟩, m₀, hbegin, h⟩ := Ending.exists_of_gives h
  obtain ⟨o', m', hstep, h⟩ := Ending.exists_of_gives h
  refine ⟨p, a, b, o, o', m, m₀, m', hparse, of_decide_eq_true hsource, ha, hb, hrun, hbegin,
    hstep, fun hkept => ?_⟩
  simp only [Bool.and_eq_true, beq_iff_eq, Option.map_eq_some_iff] at h
  obtain ⟨⟨⟨values, hvalues, hone⟩, ⟨values', hvalues', hone'⟩⟩, hunbounded⟩ := h
  obtain ⟨v, hv⟩ := hkept.older .let "glb1_y" values hvalues
  rw [hvalues', hunbounded, Option.some.injEq] at hv
  rw [hv] at hone'
  simp [History.cut, hone] at hone'

end BarScript

import BarScript.Proofs.Hygiene.Machines
import BarScript.Proofs.Stability.Compiled

/-!
# Compiled scripts find their context

What compiling adds to a script refers to the context by the name that the script gives
to it. A script that gives this name to nothing else compiles to one that leaves the name
alone: what it declares keeps its names, temporaries avoid them all, and a name that is
assigned to is a slot or a variable of a loop header. So in every run every reference
to the context, written or added, finds the context.
-/

namespace BarScript

open Machine Tame

namespace Hygiene

variable {root : String}

/-- The shape of scripts that give the name of the context to nothing else. -/
def source (root : String) : Shape where
  expr _ := True
  name x := x ≠ root

instance : DecidablePred (source root).expr := fun _ => isTrue trivial

instance : DecidablePred (source root).name := fun x => inferInstanceAs (Decidable (x ≠ root))

instance : DecidablePred (source root).decls := fun _ => isTrue trivial

instance : DecidablePred (source root).named := fun _ => isTrue trivial

theorem plain {e : Expr} (h : e.IsPlain) : (shape root).expr e := by
  cases e with
  | assign | update => exact h.elim
  | _ => trivial

theorem normal_keeps (hroot : root ∈ names) : NormalForm.Keeps root names (source root) where
  expr _ _ := trivial
  temp _ hi := fun h => hi (h ▸ hroot)

/-! ## What is assigned to -/

/-- Whether an expression is not the name of the context. -/
def Spared (root : String) (e : Expr) : Prop :=
  ∀ id, e = .ident id → id.name ≠ root

theorem shape_assign : (shape root).expr (.assign op t v) ↔ Spared root t := by
  cases t with
  | ident id => exact ⟨fun h _ hid => Expr.ident.inj hid ▸ h, fun h => h id rfl⟩
  | _ => exact iff_of_true trivial fun _ h => by cases h

theorem shape_update : (shape root).expr (.update op first t) ↔ Spared root t := by
  cases t with
  | ident id => exact ⟨fun h _ hid => Expr.ident.inj hid ▸ h, fun h => h id rfl⟩
  | _ => exact iff_of_true trivial fun _ h => by cases h

/-- What a strict compilation assigns to is not the name of the context. -/
theorem spared_target {c : Slotted.Setting} (hpolicy : c.options.unsupported = .strict)
    (hF : ∀ f ∈ F, Clear c.root f)
    (h : Naming.SlotsTarget s c F t t' l) : Spared c.root t' := by
  rintro id rfl
  cases h with
  | name ha h =>
    cases h with
    | kept => exact ne_root_of_assignable hF ha
  | raw h => cases hpolicy.symm.trans h

/-! ## Passes -/

theorem slotted_keeps {options : Options} (hpolicy : options.unsupported = .strict) :
    Naming.Forms s ⟨options, root⟩ (Clear root) (source root) (shape root) where
  enter _ _ := rfl
  hand := Clear.hand
  count := Clear.count
  declare _ _ hx hf := hf.declare _ hx
  kept h := by cases hpolicy.symm.trans h
  name hx := hx
  decls _ _ _ _ _ := trivial
  plain := plain
  ident _ := trivial
  member _ := trivial
  context := trivial
  field _ _ := trivial
  slot _ _ _ := trivial
  fresh _ _ _ := trivial
  number _ := trivial
  zero := trivial
  declared _ _ := trivial
  assign _ hF _ ht := shape_assign.2 (spared_target hpolicy hF ht)
  update hF _ ht := shape_update.2 (spared_target hpolicy hF ht)
  func _ _ := trivial
  named _ _ := trivial

theorem spared_tolerant (h : Spared root t) : Spared root (t.tolerant root) := by
  intro id hid
  cases t with
  | ident id' => exact h id hid
  | binary op l r => cases op <;> cases hid
  | _ => cases hid

theorem tolerant_keeps : Equality.Keeps root (shape root) where
  plain h _ _ := plain h
  call _ := plain trivial
  binary _ := plain trivial
  equality _ := plain trivial
  assign h := shape_assign.2 (spared_tolerant (shape_assign.1 h))
  update h := shape_update.2 (spared_tolerant (shape_update.1 h))

theorem spared_bare {t : Expr} : Spared root t.bare ↔ Spared root t := by
  constructor
  · rintro h id rfl
    exact h id.bare rfl
  · intro h id hid
    obtain ⟨id', rfl, hname⟩ := bare_eq_ident hid
    exact hname ▸ h id' rfl

theorem ignoresPositions : (shape root).IgnoresPositions where
  expr e := by
    cases e with
    | assign op t v => exact (shape_assign.trans spared_bare).trans shape_assign.symm
    | update op first t => exact (shape_update.trans spared_bare).trans shape_update.symm
    | _ => exact Iff.rfl
  decls _ := Iff.rfl
  named _ := Iff.rfl

/-- **Compiled scripts leave the name of the context alone**, and so does what reads
like one. -/
theorem script_of_compiled {options : Options} {p b : Program}
    (hpolicy : options.unsupported = .strict) (hparams : p.root.params.length = 1)
    (hp : p.root.body.All (source p.rootParam)) (hq : p.compiled options = .ok (q, counters))
    (hb : b.bare = q.bare) : Script p.rootParam b :=
  let ⟨hroot, hbody⟩ := compiled_reads normal_keeps (slotted_keeps hpolicy) tolerant_keeps
    ignoresPositions hparams hp hq hb
  ⟨hroot, hbody⟩

end Hygiene

/-- **Compiled scripts find their context.** Take a script that gives the name of its
context to nothing else, compile it strictly, and run what reads like the result on any
candles, under any settings. Then whenever that name is read, at whatever depth, in what
the script says or in what compiling added, it is found and stands for the context. -/
theorem context_name_stands_for_context {text : String} {options : Options} {p q b : Program}
    {counters : Counters} (hstrict : options.unsupported = .strict) (hparse : parse text = .ok p)
    (hsource : p.root.body.All (Hygiene.source p.rootParam))
    (hq : p.compiled options = .ok (q, counters)) (hb : b.bare = q.bare)
    (receiver : Json) (config : Config) (candles : List Candle) {v : Except Halt Value}
    (hv : Event.name p.rootParam v ∈ (Indicator.ofProgram b receiver).trace config candles) :
    v = .ok .context := by
  have hscript := Hygiene.script_of_compiled hstrict (parse_params hparse) hsource hq hb
  have hprogram : Hygiene.Script p.rootParam (Indicator.ofProgram b receiver).program := hscript
  have hfits : ∀ w, (Hygiene.upkeep p.rootParam).base.val w
      (Indicator.ofProgram b receiver).receiver (Indicator.ofProgram b receiver).receiver :=
    fun _ => ⟨rfl, fits_receiver b receiver⟩
  exact (Upkeep.clean_rows Hygiene.watches hprogram.upkeep hfits candles
    ((Indicator.ofProgram b receiver).machine config) ⟨rfl, rfl, tamed_ofJson receiver⟩).1
      _ hv v rfl

/-- Whether a name was read and stood for the context. -/
def Event.isContextAs (x : String) : Event → Bool
  | .name y (.ok .context) => y == x
  | _ => false

/-- Whether a name was read and stood for a number. -/
def Event.isNumberAs (x : String) : Event → Bool
  | .name y (.ok (.number _)) => y == x
  | _ => false

theorem Event.isContextAs_iff {e : Event} :
    e.isContextAs x = true ↔ e = .name x (.ok .context) := by
  constructor
  · intro h
    match e with
    | .name y (.ok .context) => rw [beq_iff_eq.1 h]
  · rintro rfl
    exact beq_self_eq_true x

theorem Event.exists_of_isNumberAs {e : Event} (h : e.isNumberAs x = true) :
    ∃ y, e = .name x (.ok (.number y)) := by
  match e with
  | .name z (.ok (.number y)) => exact ⟨y, by rw [beq_iff_eq.1 h]⟩

/-- A function reads a slot that is declared outside of it:
`c => { let x = 1; const f = (y) => x; return f(5) }`. -/
def outerSlotText : String :=
  "c => \x7b let x = 1; const f = (y) => x; return f(5) \x7d"

set_option maxRecDepth 100000 in
theorem context_name_stands_for_context_inFunction :
    ∃ p q counters, Options.unsupported {} = .strict ∧ parse outerSlotText = .ok p ∧
      p.root.body.All (Hygiene.source p.rootParam) ∧ p.compiled {} = .ok (q, counters) ∧
      q.bare = q.bare ∧
      Event.name p.rootParam (.ok .context) ∈ (Indicator.ofProgram q .null).trace {} [.flat 1 1] ∧
      ∀ v, Event.name p.rootParam v ∈ (Indicator.ofProgram q .null).trace {} [.flat 1 1] →
        v = .ok .context := by
  have h : Except.gives (fun p => decide (p.root.body.All (Hygiene.source p.rootParam)) &&
      Except.gives (fun r => ((Indicator.ofProgram r.1 .null).trace {} [.flat 1 1]).any
        (Event.isContextAs p.rootParam)) (p.compiled {})) (parse outerSlotText) = true := by
    refine gives_parse String.toList_ofList ?_
    decide +kernel
  obtain ⟨p, hparse, h⟩ := Except.exists_of_gives h
  obtain ⟨hsource, h⟩ := Bool.and_eq_true_iff.1 h
  obtain ⟨⟨q, counters⟩, hq, h⟩ := Except.exists_of_gives h
  obtain ⟨e, he, hcontext⟩ := List.any_eq_true.1 h
  have hsource := of_decide_eq_true hsource
  exact ⟨p, q, counters, rfl, hparse, hsource, hq, rfl, Event.isContextAs_iff.1 hcontext ▸ he,
    fun v hv => context_name_stands_for_context rfl hparse hsource hq rfl .null {} _ hv⟩

/-- The same function with a parameter of the context's name:
`c => { let x = 1; const f = (c) => x; return f(5) }`. -/
def capturedText : String :=
  "c => \x7b let x = 1; const f = (c) => x; return f(5) \x7d"

set_option maxRecDepth 100000 in
/-- A parameter may have the name of the context, and then what compiling adds to
the body of the function finds the argument. -/
theorem parameter_captures_context_name :
    ∃ p q counters x, parse capturedText = .ok p ∧ p.compiled {} = .ok (q, counters) ∧
      Event.name p.rootParam (.ok (.number x)) ∈
        (Indicator.ofProgram q .null).trace {} [.flat 1 1] := by
  have h : Except.gives (fun p =>
      Except.gives (fun r => ((Indicator.ofProgram r.1 .null).trace {} [.flat 1 1]).any
        (Event.isNumberAs p.rootParam)) (p.compiled {})) (parse capturedText) = true := by
    refine gives_parse String.toList_ofList ?_
    decide +kernel
  obtain ⟨p, hparse, h⟩ := Except.exists_of_gives h
  obtain ⟨⟨q, counters⟩, hq, h⟩ := Except.exists_of_gives h
  obtain ⟨e, he, hnumber⟩ := List.any_eq_true.1 h
  obtain ⟨x, rfl⟩ := Event.exists_of_isNumberAs hnumber
  exact ⟨p, q, counters, x, hparse, hq, he⟩

end BarScript

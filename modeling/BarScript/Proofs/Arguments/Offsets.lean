import BarScript.Proofs.Arguments.Windows
import BarScript.Proofs.Comparison
import BarScript.Proofs.Passes.Slotted

/-!
# Indexed arguments

What is written `x[k]` is read in one of two ways. Outside of an argument it is an element of
what `x` holds. As an argument of a namespace function it is handed over as the history of `x`
with an offset. The two go different ways through the machine, and each has its own rule for
what `k` may be: an element is there for a number that is finite and not negative, while an
offset is the number of bars that `k` counts, and what counts no bars is no offset.

So the two agree where `x` holds a series and `k` is a finite number that is not negative, be
it whole or not, and however large. A `k` of any other kind reads as missing and shows the
series as it is. What holds no series has no bars to go back to but those of the argument
itself.
-/

namespace BarScript

open Machine Slotted Arguments

/-! ## Numbers -/

namespace Number

theorem le_of_lt {x y : Float} (h : x < y) : x ≤ y := by
  have hlt : (x.toModel.unpack.compare y.toModel.unpack == some .lt) = true :=
    of_decide_eq_true (p := x.toModel < y.toModel) h
  refine decide_eq_true (p := x.toModel ≤ y.toModel) ?_
  show (x.toModel.unpack.compare y.toModel.unpack).any Ordering.isLE = true
  rw [beq_iff_eq.1 hlt]
  rfl

/-- What is not negative and not positive is the first place. -/
theorem toIndex_eq_zero (h : x ≥ 0.0) (hpos : ¬ x > 0.0) : toIndex x = 0 := by
  have hzero : (0.0 : Float).toModel.unpack = .zero .positive := rfl
  have hle : ((0.0 : Float).toModel.unpack.compare x.toModel.unpack).any Ordering.isLE = true :=
    of_decide_eq_true (p := (0.0 : Float).toModel ≤ x.toModel) h
  have hlt : ¬ ((0.0 : Float).toModel.unpack.compare x.toModel.unpack == some .lt) = true :=
    fun hlt => hpos (decide_eq_true (p := (0.0 : Float).toModel < x.toModel) hlt)
  rw [hzero] at hle hlt
  show x.toModel.unpack.toUInt64.toNat = 0
  cases hx : x.toModel.unpack with
  | zero s => rfl
  | notANumber => rw [hx] at hle; cases hle
  | infinity s | finite s =>
    rw [hx] at hle hlt
    cases s with
    | positive => exact absurd rfl hlt
    | negative => cases hle

end Number

namespace Heap

variable {h : Heap} {k : Value} {i : Nat}

theorem bars_of_position? (hi : h.position? k = some i) : h.bars k = i := by
  obtain ⟨hk, hi⟩ := Option.ite_none_right_eq_some.1 hi
  obtain rfl := Option.some.inj hi
  obtain ⟨hfinite, hge⟩ := Bool.and_eq_true_iff.1 hk
  by_cases hpos : h.number k > 0.0
  · exact if_pos (Bool.and_eq_true_iff.2 ⟨hfinite, decide_eq_true hpos⟩)
  · have hzero := Number.toIndex_eq_zero (of_decide_eq_true hge) hpos
    exact (if_neg fun hk => hpos (of_decide_eq_true (Bool.and_eq_true_iff.1 hk).2)).trans hzero.symm

theorem bars_of_position?_none (hk : h.position? k = none) : h.bars k = 0 := by
  refine if_neg fun hpos => ?_
  obtain ⟨hfinite, hgt⟩ := Bool.and_eq_true_iff.1 hpos
  have hge : (Number.isFinite (h.number k) && decide (h.number k ≥ 0.0)) = true :=
    Bool.and_eq_true_iff.2 ⟨hfinite, decide_eq_true (Number.le_of_lt (of_decide_eq_true hgt))⟩
  unfold position? at hk
  rw [if_pos hge] at hk
  cases hk

theorem position?_na : h.position? .na = none := by
  have hnumber : h.number .na = Number.nan := rfl
  unfold position?
  rw [hnumber]
  exact if_neg (by decide +kernel)

/-- A view that is shifted shows what the view showed so many bars ago, unless there are more
bars than a view can be shifted by. -/
theorem seriesGet_shiftOffset (hlen : (h.history r).length ≤ maxOffset) (offset bars : Nat) :
    h.seriesGet r (shiftOffset offset bars) 0 = h.seriesGet r offset bars := by
  unfold seriesGet History.get? shiftOffset
  by_cases hle : offset + bars ≤ maxOffset
  · rw [Nat.min_eq_left hle, Nat.add_zero]
  · have hlt := Nat.lt_of_not_le hle
    rw [Nat.min_eq_right (Nat.le_of_lt hlt), Nat.add_zero, List.getElem?_eq_none hlen,
      List.getElem?_eq_none (Nat.le_trans hlen (Nat.le_of_lt hlt))]

end Heap

/-! ## Expressions -/

section Points

variable {host : Host} {env : Env} {m : Machine} {c : Setting} {a k : Expr} {key : String}

/-- Equality operators apart, an argument stays as it is. -/
theorem Slotted.Setting.tolerant_param :
    (c.param a k key).tolerant c.root = c.param (a.tolerant c.root) (k.tolerant c.root) key :=
  rfl

/-- **An argument** evaluates its operands and wraps what they give. -/
theorem eval_param (hroot : m.heap.lookup? env c.root = some .context) :
    (c.param a k key).eval host env m =
      (do
        let v ← a.eval host env
        let n ← k.eval host env
        Machine.param v n key : Exec Value) m := by
  have hcontext : c.context.eval host env m = .ok .context m := readName_of_lookup? hroot
  have hcallee : (Expr.member c.context "param").eval host env m = .ok (.contextFn .param) m :=
    Exec.bind_ok hcontext
  refine (Exec.bind_ok hcallee).trans ?_
  simp only [Expr.evalList, bind_assoc, pure_bind]
  rfl

/-- No history is longer than a view can be shifted. -/
def Machine.Within (m : Machine) : Prop :=
  ∀ r, (m.heap.history r).length ≤ maxOffset

/-- What a value with an offset is shown as, and what the element at the offset is. -/
structure Machine.ShownAs (m : Machine) (v k : Value) (key : String) (shown : Value) : Prop where
  /-- At a place of a series the two are the same. -/
  element : m.Within → ∀ r o i, v = .series r o → m.heap.position? k = some i →
    readElement v k m = .ok shown m
  /-- There is no element at what is no place, and as an offset it means none. -/
  whole : m.Within → ∀ r o, v = .series r o → m.heap.position? k = none →
    readElement v k m = .ok .na m ∧ shown = m.heap.current v
  /-- What is no series goes back along the arguments of its own key. -/
  asked : KeysApart m → shown = Traced.asked m v k key

theorem Machine.ShownAs.eq_current (h : m.ShownAs v .na key shown)
    (hwithin : m.Within) (hm : KeysApart m) : shown = m.heap.current v := by
  cases v with
  | series r o => exact (h.whole hwithin r o rfl Heap.position?_na).2
  | func | native => exact h.asked hm
  | _ => exact (h.asked hm).trans (if_pos (Heap.bars_of_position?_none Heap.position?_na))

theorem Machine.readElement_series_of_none {r : Ref} {o : Nat} {k : Value}
    (hk : m.heap.position? k = none) : readElement (.series r o) k m = .ok .na m := by
  show EStateM.Result.ok _ m = _
  dsimp only
  rw [hk]

theorem Machine.param_series (r : Ref) (o : Nat) (k : Value) (key : String) (m : Machine) :
    Machine.param (.series r o) k key m = .ok (.series r (shiftOffset o (m.heap.bars k))) m :=
  rfl

theorem Machine.exists_param (v k : Value) (key : String) (m : Machine) :
    ∃ w m', Machine.param v k key m = .ok w m' := by
  have hhistory : ∃ r m₁, paramHistory key m = .ok r m₁ := by
    cases hkey : m.context.params.get? key with
    | some r => exact ⟨r, m, paramHistory_of_get? hkey⟩
    | none => exact ⟨_, _, paramHistory_of_none hkey⟩
  obtain ⟨r, m₁, hr⟩ := hhistory
  cases v with
  | series | func | native => exact ⟨_, _, rfl⟩
  | _ => exact ⟨_, _, Exec.bind_ok hr⟩

/-- **What wrapping gives** shows what is known of it. -/
theorem Machine.shownAs_param {m m' : Machine} {v k w : Value} {key : String}
    (h : Machine.param v k key m = .ok w m') : m.ShownAs v k key (m'.heap.current w) where
  element hwithin r o i hv hi := by
    rw [hv, param_series, Heap.bars_of_position? hi] at h
    cases h
    rw [hv, readElement_series hi]
    exact congrArg (EStateM.Result.ok · m) (Heap.seriesGet_shiftOffset (hwithin r) o i).symm
  whole hwithin r o hv hk := by
    rw [hv, param_series, Heap.bars_of_position?_none hk] at h
    cases h
    rw [hv]
    exact ⟨readElement_series_of_none hk, Heap.seriesGet_shiftOffset (hwithin r) o 0⟩
  asked hm := given_eq_asked hm h

end Points

/-- The compiled form of an indexed argument. The numbers that have names have no history, so
their elements are handed over. -/
theorem Expr.slottedParams_index {c : Setting} {id : Ident} {sub : Expr} {rest args : List Expr}
    {s s' : Progress}
    (h : Expr.slottedParams c (.index (.ident id) sub :: rest) s = .ok (args, s')) :
    ∃ base sub' s₁ key rest',
      (Expr.index (.ident id) sub).slotted c .value s = .ok (.index base sub', s₁) ∧
      args = (if isNumberName id.name then c.param (.index base sub') .undefined key
        else c.param base sub' key) :: rest' := by
  rw [Expr.slottedParams_cons] at h
  obtain ⟨arg, s₃, harg, h⟩ := StateT.bind_eq_ok h
  obtain ⟨rest', s₄, -, h⟩ := StateT.bind_eq_ok h
  cases h
  obtain ⟨sub', s₁, hsub, harg⟩ := StateT.bind_eq_ok harg
  obtain ⟨base, s₂, hbase, harg⟩ := StateT.bind_eq_ok harg
  refine ⟨base, sub', s₂, s₂.scopes.paramId.1, rest',
    (StateT.bind_ok hsub).trans ((StateT.bind_ok hbase).trans rfl), ?_⟩
  by_cases hnumber : isNumberName id.name = true
  · rw [if_pos hnumber] at harg ⊢
    cases harg
    rfl
  · rw [if_neg hnumber] at harg ⊢
    cases harg
    rfl

/-- **An indexed argument and an indexed read.** Compile `x[k]` as an argument of a namespace
function and as an expression of its own, at the same place: the compiled name and the compiled
subscript are the same. Evaluate the two from the same point of any run, where the name of the
context stands for the context. If the name or the subscript fails, both fail with it. Else the
argument is there, and shows what `ShownAs` says next to the element. Of the numbers that have
names the argument shows the element itself. -/
theorem indexed_argument_shows_element {c : Setting} {id : Ident} {sub : Expr}
    {rest args : List Expr} {s s' : Progress}
    (h : Expr.slottedParams c (.index (.ident id) sub :: rest) s = .ok (args, s')) :
    ∃ base sub' s₁ arg key rest', args = arg :: rest' ∧
      (Expr.index (.ident id) sub).slotted c .value s = .ok (.index base sub', s₁) ∧
      ∀ (host : Host) (env : Env) (m : Machine), m.heap.lookup? env c.root = some .context →
        (∃ err m', (arg.tolerant c.root).eval host env m = .error err m' ∧
          ((Expr.index base sub').tolerant c.root).eval host env m = .error err m') ∨
        ∃ v m₁ k m₂ w m₃, (base.tolerant c.root).eval host env m = .ok v m₁ ∧
          (sub'.tolerant c.root).eval host env m₁ = .ok k m₂ ∧
          ((Expr.index base sub').tolerant c.root).eval host env m = readElement v k m₂ ∧
          (arg.tolerant c.root).eval host env m = .ok w m₃ ∧
          (isNumberName id.name = false → m₂.ShownAs v k key (m₃.heap.current w)) ∧
          (isNumberName id.name = true → ∃ u m₂', readElement v k m₂ = .ok u m₂' ∧
            (m₂'.Within → KeysApart m₂' → m₃.heap.current w = m₂'.heap.current u)) := by
  obtain ⟨base, sub', s₁, key, rest', hread, rfl⟩ := Expr.slottedParams_index h
  refine ⟨base, sub', s₁, _, key, rest', rfl, hread, fun host env m hroot => ?_⟩
  by_cases hnumber : isNumberName id.name = true
  · rw [if_pos hnumber, Setting.tolerant_param, eval_param hroot]
    cases hu : ((Expr.index base sub').tolerant c.root).eval host env m with
    | error err m' => exact .inl ⟨err, m', Exec.bind_error hu, rfl⟩
    | ok u m₂' =>
      obtain ⟨v, m₁, hv, hrest⟩ := Exec.bind_eq_ok hu
      obtain ⟨k, m₂, hk, helement⟩ := Exec.bind_eq_ok hrest
      obtain ⟨w, m₃, hw⟩ := exists_param u .na key m₂'
      exact .inr ⟨v, m₁, k, m₂, w, m₃, hv, hk, helement.symm, (Exec.bind_ok hu).trans hw,
        fun h => absurd hnumber (by rw [h]; decide),
        fun _ => ⟨u, m₂', helement, (shownAs_param hw).eq_current⟩⟩
  · rw [if_neg hnumber, Setting.tolerant_param, eval_param hroot]
    cases hv : (base.tolerant c.root).eval host env m with
    | error err m' => exact .inl ⟨err, m', Exec.bind_error hv, Exec.bind_error hv⟩
    | ok v m₁ =>
      cases hk : (sub'.tolerant c.root).eval host env m₁ with
      | error err m' =>
        exact .inl ⟨err, m', (Exec.bind_ok hv).trans (Exec.bind_error hk),
          (Exec.bind_ok hv).trans (Exec.bind_error hk)⟩
      | ok k m₂ =>
        obtain ⟨w, m₃, hw⟩ := exists_param v k key m₂
        exact .inr ⟨v, m₁, k, m₂, w, m₃, rfl, hk, (Exec.bind_ok hv).trans (Exec.bind_ok hk),
          (Exec.bind_ok hv).trans ((Exec.bind_ok hk).trans hw), fun _ => shownAs_param hw,
          fun h => absurd h hnumber⟩

section Between

/-- A machine on which `x` is 5 and was 4 a bar ago. -/
def Machine.withX : Machine where
  heap := { frames := #[.ofList [("c", .context)]]
            histories := #[{ values := [.number 5, .number 4] }] }
  context := ({} : Context).setSlot .let "glb1_x" 0

theorem Machine.within_withX : Machine.withX.Within := by
  intro r
  cases r with
  | zero => decide +kernel
  | succ r => exact Nat.zero_le _

def Slotted.Setting.historyX : Expr :=
  .member (.member (.named "c") "let") "glb1_x"

/-- An offset between two bars: both ways `x[1.5]` is the last value of `x`. -/
theorem indexed_argument_shows_element_between :
    ∃ key s', Expr.slottedParams ⟨{}, "c"⟩ [.index (.named "x") (.number 1.5)] .withX =
        .ok ([Setting.param ⟨{}, "c"⟩ Setting.historyX (.number 1.5) key], s') ∧
      Machine.withX.heap.lookup? [0] "c" = some .context ∧
      ∃ w m', (Setting.param ⟨{}, "c"⟩ Setting.historyX (.number 1.5) key).eval .bare [0] .withX =
          .ok w m' ∧
        m'.heap.current w = .number 4 ∧
        (Expr.index Setting.historyX (.number 1.5)).eval .bare [0] .withX =
          .ok (.number 4) .withX := by
  have h : Expr.slottedParams ⟨{}, "c"⟩ [.index (.named "x") (.number 1.5)] .withX =
    .ok ([Setting.param ⟨{}, "c"⟩ Setting.historyX (.number 1.5) _], _) := rfl
  refine ⟨_, _, h, rfl, ?_⟩
  obtain ⟨_, _, _, _, key, _, ⟨⟩, ⟨⟩, hpoint⟩ := indexed_argument_shows_element h
  rcases hpoint .bare [0] .withX rfl with ⟨err, m', -, herr⟩ |
    ⟨v, m₁, k, m₂, w, m', hv, hk, hread, harg, hshown, -⟩
  · exact nomatch herr
  · cases hv
    cases hk
    have hplace : Machine.withX.heap.position? (.number 1.5) = some 1 := by decide +kernel
    have helement := (hshown rfl).element Machine.within_withX 0 0 1 rfl hplace
    have hfour : readElement (.series 0 0) (.number 1.5) .withX = .ok (.number 4) .withX :=
      readElement_series hplace
    have hsame := EStateM.Result.ok.inj (helement.symm.trans hfour)
    exact ⟨w, m', harg, hsame.1, hread.trans hfour⟩

end Between

/-- A bar before the first: `c => { const { close } = c.data; const { core } = c; const read =
close[-1]; return { read: core.na(read), shown: math.abs(close[-1]) } }`. -/
def beforeText : String :=
  "c => \x7b const \x7b close \x7d = c.data; const \x7b core \x7d = c; const read = close[-1]; " ++
  "return \x7b read: core.na(read), shown: math.abs(close[-1]) \x7d \x7d"

set_option maxRecDepth 100000 in
/-- An element is missing, and the argument is not. -/
theorem element_is_missing_and_shown :
    ∃ ind o m, Indicator.compileAndBind {} beforeText .null = .ok ind ∧
      (ind.run {} [.flat 1 1]).1 = .ok (o, m) ∧ o.bools? "read" = some [true] ∧
      (o.numbers? "shown" == some [1]) = true := by
  have h : Except.gives (fun ind => Except.gives
      (fun r => r.1.bools? "read" == some [true] && r.1.numbers? "shown" == some [1])
      (ind.run {} [.flat 1 1]).1) (Indicator.compileAndBind {} beforeText .null) = true := by
    refine gives_compileAndBind (toList_append_of String.toList_ofList String.toList_ofList) ?_
    decide +kernel
  obtain ⟨ind, hind, h⟩ := Except.exists_of_gives h
  obtain ⟨⟨o, m⟩, hrun, h⟩ := Except.exists_of_gives h
  obtain ⟨hread, hshown⟩ := Bool.and_eq_true_iff.1 h
  exact ⟨ind, o, m, hind, hrun, beq_iff_eq.1 hread, hshown⟩

end BarScript

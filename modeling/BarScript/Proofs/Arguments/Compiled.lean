import BarScript.Proofs.Arguments.Windows
import BarScript.Proofs.Naming.Shaped
import BarScript.Proofs.Parsed

/-!
# The arguments of compiled scripts

Compiling wraps every argument of a namespace function under a key of its own, and it
hands out each key once. So a call of a compiled script says no key twice, neither in its
own arguments nor in those of the calls inside of them, and what is known of such calls
holds in every run: an argument shows what it showed when it was evaluated, unless its
history was touched in between, and for that a script function or an assignment is
needed.
-/

namespace BarScript

open Machine Slotted Naming List

namespace Arguments

/-- The shape of scripts that do not wrap values themselves: no field has the name of the
function that does. -/
def source : Shape where
  expr
    | .member _ property => property ≠ "param"
    | _ => True
  name _ := True

instance : DecidablePred source.expr := fun e =>
  match e with
  | .member _ property => inferInstanceAs (Decidable (property ≠ "param"))
  | .number _ | .str _ | .bool _ | .null | .undefined | .ident _ | .this | .index _ _ | .call _ _
  | .unary _ _ | .update _ _ _ | .binary _ _ _ | .logical _ _ _ | .conditional _ _ _
  | .assign _ _ _ | .array _ | .object _ | .func _ => isTrue trivial

instance : DecidablePred source.name := fun _ => isTrue trivial

instance : DecidablePred source.decls := fun _ => isTrue trivial

instance : DecidablePred source.named := fun _ => isTrue trivial

theorem source_normal (root : String) (names : List String) :
    NormalForm.Keeps root names source where
  expr {e} p he := by
    cases e with
    | member base property => exact he
    | _ => trivial

/-! ## Keys are said once -/

/-- Keys that are among those handed out, each as often as it is handed out at most. -/
structure Among (keys params : List String) : Prop where
  mem : ∀ key ∈ keys, key ∈ params
  nodup : params.Nodup → keys.Nodup

theorem among_nil (params : List String) : Among [] params :=
  ⟨fun _ h => (by cases h), fun _ => nodup_nil⟩

theorem Among.append (h : Among ks params) (h' : Among ks' params') :
    Among (ks ++ ks') (params ++ params') where
  mem := forall_mem_append.2 ⟨fun k hk => mem_append_left _ (h.mem k hk),
    fun k hk => mem_append_right _ (h'.mem k hk)⟩
  nodup hn := by
    obtain ⟨hn, hn', hne⟩ := nodup_append.1 hn
    exact nodup_append.2 ⟨h.nodup hn, h'.nodup hn',
      fun a ha b hb => hne a (h.mem a ha) b (h'.mem b hb)⟩

/-- What comes first in the text may be handed out last. -/
theorem Among.swap (h : Among ks params) (h' : Among ks' params') :
    Among (ks' ++ ks) (params ++ params') where
  mem k hk := (h.append h').mem k (mem_append.2 (mem_append.1 hk).symm)
  nodup hn := nodup_append_comm.1 ((h.append h').nodup hn)

theorem mem_wrapKeys {e : Expr} (h : e.wrapKey? = some key) : key ∈ e.wrapKeys := by
  cases e with
  | call callee args =>
    unfold Expr.wrapKeys
    rw [h]
    exact mem_cons_self
  | _ => cases h

theorem listWrapKeys_append (es es' : List Expr) :
    Expr.listWrapKeys (es ++ es') = Expr.listWrapKeys es ++ Expr.listWrapKeys es' := by
  induction es with
  | nil => rfl
  | cons e rest ih =>
    show _ ++ Expr.listWrapKeys (rest ++ es') = _ ++ _ ++ _
    rw [ih, append_assoc]

theorem fresh_of_nodup (h : (Expr.listWrapKeys es).Nodup) : Expr.Fresh es := by
  induction es with
  | nil => trivial
  | cons e rest ih =>
    obtain ⟨-, hrest, hne⟩ := nodup_append.1 h
    exact ⟨fun key hkey hmem => hne key (mem_wrapKeys hkey) key hmem rfl, ih hrest⟩

/-- The shape of trees whose calls, and the comparisons that may become calls, say no key
twice. -/
def fresh : Shape where
  expr
    | .call _ args => Expr.Fresh args
    | .binary _ left right => Expr.Fresh [left, right]
    | _ => True
  name _ := True

theorem fresh_expr {e : Expr} (h : e.wrapKeys.Nodup) : fresh.expr e := by
  cases e with
  | call callee args =>
    obtain ⟨-, h, -⟩ := nodup_append.1 h
    obtain ⟨-, h, -⟩ := nodup_append.1 h
    exact fresh_of_nodup h
  | binary op left right =>
    refine fresh_of_nodup ?_
    show (left.wrapKeys ++ (right.wrapKeys ++ [])).Nodup
    rw [List.append_nil]
    exact h
  | _ => trivial

theorem wrapKeys_path (h : IsPath e) : e.wrapKeys = [] := by
  match e with
  | .ident _ => rfl
  | .member base _ => exact wrapKeys_path (e := base) h

section Rendering

variable {s : Scopes} {c : Setting}

theorem wrapKeys_use {id : Ident} (h : Uses s c F role id e') : e'.wrapKeys = [] := by
  cases h <;> rfl

/-- A callee of the script is rendered as one that does not wrap. -/
theorem wrapKey?_call {callee : Expr} (hcallee : callee.All source)
    (h : Slots s c F .value callee callee' l)
    (args : List Expr) : (Expr.call callee' args).wrapKey? = none := by
  cases hkey : (Expr.call callee' args).wrapKey? with
  | none => rfl
  | some key =>
    obtain ⟨base, e, offset, rfl, -⟩ := Expr.wrapKey?_eq_some hkey
    cases h with
    | atom h => cases h
    | name h => cases h
    | member h => exact absurd rfl hcallee.1

theorem wrapKey?_spaceCall {callee : Expr} (hcallee : callee.All source) (args : List Expr) :
    (Expr.call callee args).wrapKey? = none := by
  cases hkey : (Expr.call callee args).wrapKey? with
  | none => rfl
  | some key =>
    obtain ⟨base, e, offset, rfl, -⟩ := Expr.wrapKey?_eq_some hkey
    exact absurd rfl hcallee.1

theorem listWrapKeys_keys (h : Keys c ns es l) : Expr.listWrapKeys es = [] := by
  cases h <;> rfl

theorem wrap_keys (c : Setting) (series offset : Expr) (k : String) :
    (c.param series offset k).wrapKeys = [k] ++ (series.wrapKeys ++ offset.wrapKeys) := by
  show [k] ++ ([] ++ (series.wrapKeys ++ (offset.wrapKeys ++ []))) = _
  rw [List.append_nil, List.nil_append]

theorem among_self (k : String) : Among [k] [k] :=
  ⟨fun _ h => h, id⟩

section Keys

variable (hc : c.options.unsupported = .strict)

include hc

-- Some members use `hc` only through the others, which the linter does not see.
set_option linter.unusedSectionVars false

mutual

/-- **Expressions** say keys that are handed out for them. -/
theorem among_expr (h : Slots s c F role e e' l) : e.All source → Among e'.wrapKeys l.params := by
  match h with
  | .atom h =>
    intro _
    have hkeys : e.wrapKeys = [] := by
      cases e with
      | number | str | bool | null | undefined | this => rfl
      | _ => cases h
    rw [hkeys]
    exact among_nil _
  | .name h =>
    intro _
    rw [wrapKeys_use h]
    exact among_nil _
  | .member h =>
    intro he
    exact (among_expr h he.2 :)
  | .index hs hb => exact fun he => (among_expr hs he.2.2).swap (among_expr hb he.2.1)
  | .spaceCall hns ha hk =>
    intro he
    unfold Expr.wrapKeys
    rw [wrapKey?_spaceCall he.2.1, wrapKeys_path (isPath_of_namespaceOf hns), listWrapKeys_append,
      listWrapKeys_keys hk]
    exact (among_params ha he.2.2).append (among_nil _)
  | .call hns hf ha =>
    intro he
    unfold Expr.wrapKeys
    rw [wrapKey?_call he.2.1 hf]
    exact (among_expr hf he.2.1).append (among_list ha he.2.2)
  | .unary h =>
    intro he
    exact (among_expr h he.2 :)
  | .update h =>
    intro he
    exact (among_target h he.2 :)
  | .binary hl hr | .logical hl hr =>
    exact fun he => (among_expr hl he.2.1).append (among_expr hr he.2.2)
  | .conditional ht he ha =>
    exact fun hall => (among_expr ht hall.2.1).append
      ((among_expr he hall.2.2.1).append (among_expr ha hall.2.2.2))
  | .assign ht hv => exact fun he => (among_target ht he.2.1).append (among_expr hv he.2.2)
  | .array h => exact fun he => among_list h he.2
  | .object h => exact fun he => among_props h he.2
  -- a function says nothing until it is called
  | .func _ => exact fun _ => among_nil _

theorem among_target (h : SlotsTarget s c F e e' l) :
    e.All source → Among e'.wrapKeys l.params := by
  match h with
  | .name _ h =>
    intro _
    rw [wrapKeys_use h]
    exact among_nil _
  | .member h =>
    intro he
    exact (among_expr h he.2 :)
  | .index hs hb => exact fun he => (among_expr hs he.2.2).swap (among_expr hb he.2.1)
  | .raw h _ => cases hc.symm.trans h

theorem among_list (h : SlotsList s c F es es' l) :
    Expr.ListAll source es → Among (Expr.listWrapKeys es') l.params := by
  match h with
  | .nil => exact fun _ => among_nil _
  | .cons h hs => exact fun he => (among_expr h he.1).append (among_list hs he.2)

theorem among_props (h : SlotsProps s c F ps ps' l) :
    Expr.PropAll source ps → Among (Expr.propWrapKeys ps') l.params := by
  match h with
  | .nil => exact fun _ => among_nil _
  | .cons h hs => exact fun he => (among_expr h he.1).append (among_props hs he.2)

theorem among_param (h : SlotsParam s c F e e' l) : e.All source → Among e'.wrapKeys l.params := by
  match h with
  | .func _ => exact fun _ => among_nil _
  | .function _ => exact fun _ => among_nil _
  | .series (k := k) h =>
    intro _
    rw [wrap_keys, wrapKeys_use h]
    exact among_self k
  | .offset (k := k) hs h =>
    intro he
    rw [wrap_keys, wrapKeys_use h]
    exact (among_expr hs he.2.2).swap (among_self k)
  | .value (k := k) h =>
    intro he
    rw [wrap_keys, show Expr.undefined.wrapKeys = [] from rfl, List.append_nil]
    exact (among_expr h he).swap (among_self k)

theorem among_params (h : SlotsParams s c F es es' l) :
    Expr.ListAll source es → Among (Expr.listWrapKeys es') l.params := by
  match h with
  | .nil => exact fun _ => among_nil _
  | .cons h hs => exact fun he => (among_param h he.1).append (among_params hs he.2)

end

end Keys

/-- Slotted scripts have calls that say no key twice: keys are handed out once. -/
theorem fresh_keeping (s : Scopes) (hc : c.options.unsupported = .strict) :
    Keeping s c (fun _ => True) (fun _ => True) (fun l => l.params.Nodup) source fresh where
  enter _ _ := trivial
  hand _ _ := trivial
  count _ _ _ := trivial
  declare _ _ _ _ := trivial
  parts h := ⟨(nodup_append.1 h).1, (nodup_append.1 h).2.1⟩
  kept h := by cases hc.symm.trans h
  name _ := trivial
  named _ _ := trivial
  decls _ _ _ _ _ := trivial
  expr _ hl he h := fresh_expr ((among_expr hc h he).nodup hl)
  target _ hl he h := fresh_expr ((among_target hc h he).nodup hl)
  param _ hl he h := fresh_expr ((among_param hc h he).nodup hl)
  use _ _ h := by
    cases h with
    | current => exact ⟨trivial, ⟨trivial, trivial, trivial⟩, trivial⟩
    | history => exact ⟨trivial, trivial, trivial⟩
    | kept => trivial
  path h _ := path_all (fun h => fresh_expr ((wrapKeys_path h).symm ▸ nodup_nil)) h
  atom {e} h _ := by
    cases e with
    | number | str | bool | null | undefined | this => trivial
    | _ => cases h
  field _ := ⟨trivial, trivial⟩
  slot _ _ := ⟨trivial, trivial, trivial⟩
  undefined := trivial
  key _ := trivial
  element _ _ := trivial
  precision _ := ⟨fun _ _ h => (by cases h), trivial⟩
  init _ _ := ⟨⟨fun _ h => (by cases h), fun _ _ h => (by cases h), trivial⟩, trivial⟩

end Rendering

/-! ## Keys without positions and equality operators -/

section Forms

variable (root : String)

def IsWrap (e : Expr) (key : String) : Prop :=
  ∃ base a offset, e = .call (.member base "param") [a, offset, .str key]

theorem wrapKey?_eq_some_iff {e : Expr} : e.wrapKey? = some key ↔ IsWrap e key := by
  constructor
  · intro h
    cases e with
    | call callee args =>
      obtain ⟨base, a, offset, rfl, rfl⟩ := Expr.wrapKey?_eq_some h
      exact ⟨base, a, offset, rfl⟩
    | _ => cases h
  · rintro ⟨base, a, offset, rfl⟩
    rfl

theorem wrapKey?_congr (h : ∀ key, IsWrap e key ↔ IsWrap e' key) : e.wrapKey? = e'.wrapKey? :=
  Option.ext fun key => (wrapKey?_eq_some_iff.trans (h key)).trans wrapKey?_eq_some_iff.symm

theorem exists_of_tolerant_eq_member {e : Expr} (h : e.tolerant root = .member base property) :
    ∃ base', e = .member base' property := by
  cases e with
  | member base' property' =>
    injection h with _ h
    exact ⟨base', h ▸ rfl⟩
  | binary op left right =>
    unfold Expr.tolerant at h
    split at h
    · cases h
    · cases h
  | _ => cases h

theorem eq_str_of_tolerant {e : Expr} (h : e.tolerant root = .str k) : e = .str k := by
  cases e with
  | str => exact h
  | binary op left right =>
    unfold Expr.tolerant at h
    split at h
    · cases h
    · cases h
  | _ => cases h

theorem wrapKey?_tolerant (e : Expr) : (e.tolerant root).wrapKey? = e.wrapKey? := by
  refine wrapKey?_congr fun key => ⟨?_, ?_⟩
  · rintro ⟨base, a, offset, h⟩
    cases e with
    | call callee args =>
      injection h with hcallee hargs
      obtain ⟨base', rfl⟩ := exists_of_tolerant_eq_member root hcallee
      match args, hargs with
      | [a', offset', k], hargs =>
        injection hargs with _ hargs
        injection hargs with _ hargs
        injection hargs with hk
        exact ⟨base', a', offset', by rw [eq_str_of_tolerant root hk]⟩
      | _ :: _ :: _ :: _ :: _, hargs =>
        injection hargs with _ hargs
        injection hargs with _ hargs
        injection hargs with _ hargs
        cases hargs
    | binary op left right =>
      -- what stands for an equality is no wrap
      unfold Expr.tolerant at h
      split at h
      · injection h with hcallee
        injection hcallee with _ hname
        exact absurd hname (by decide)
      · cases h
    | _ => cases h
  · rintro ⟨base, a, offset, rfl⟩
    exact ⟨_, _, _, rfl⟩

theorem wrapKey?_bare (e : Expr) : e.bare.wrapKey? = e.wrapKey? := by
  refine wrapKey?_congr fun key => ⟨?_, ?_⟩
  · rintro ⟨base, a, offset, h⟩
    match e, h with
    | .call (.member base' _) [a', offset', .str _], h =>
      injection h with hcallee hargs
      injection hcallee with _ hname
      injection hargs with _ hargs
      injection hargs with _ hargs
      injection hargs with hk
      injection hk with hk
      exact ⟨base', a', offset', by rw [hname, hk]⟩
  · rintro ⟨base, a, offset, rfl⟩
    exact ⟨_, _, _, rfl⟩

mutual

theorem wrapKeys_tolerant (e : Expr) : (e.tolerant root).wrapKeys = e.wrapKeys := by
  match e with
  | .member base _ | .unary _ base | .update _ _ base => exact wrapKeys_tolerant base
  | .index base sub | .logical _ base sub | .assign _ base sub =>
    exact congrArg₂ _ (wrapKeys_tolerant base) (wrapKeys_tolerant sub)
  | .call callee args =>
    exact congrArg₂ _ (congrArg _ (wrapKey?_tolerant root (.call callee args)))
      (congrArg₂ _ (wrapKeys_tolerant callee) (listWrapKeys_tolerant args))
  | .binary op left right =>
    have h := congrArg₂ (· ++ ·) (wrapKeys_tolerant left) (wrapKeys_tolerant right)
    unfold Expr.tolerant
    split
    · show [] ++ ([] ++ (_ ++ (_ ++ []))) = _
      rw [List.append_nil]
      exact h
    · exact h
  | .conditional test consequent alternate =>
    exact congrArg₂ _ (wrapKeys_tolerant test)
      (congrArg₂ _ (wrapKeys_tolerant consequent) (wrapKeys_tolerant alternate))
  | .array items => exact listWrapKeys_tolerant items
  | .object props => exact propWrapKeys_tolerant props
  | .number _ | .str _ | .bool _ | .null | .undefined | .ident _ | .this | .func _ => rfl

theorem listWrapKeys_tolerant (es : List Expr) :
    Expr.listWrapKeys (Expr.listTolerant root es) = Expr.listWrapKeys es := by
  match es with
  | [] => rfl
  | e :: rest => exact congrArg₂ _ (wrapKeys_tolerant e) (listWrapKeys_tolerant rest)

theorem propWrapKeys_tolerant (ps : List (String × Expr)) :
    Expr.propWrapKeys (Expr.propTolerant root ps) = Expr.propWrapKeys ps := by
  match ps with
  | [] => rfl
  | (_, e) :: rest => exact congrArg₂ _ (wrapKeys_tolerant e) (propWrapKeys_tolerant rest)

end

mutual

theorem wrapKeys_bare (e : Expr) : e.bare.wrapKeys = e.wrapKeys := by
  match e with
  | .member base _ => exact wrapKeys_bare base
  | .index base sub | .binary _ base sub | .logical _ base sub | .assign _ base sub =>
    exact congrArg₂ _ (wrapKeys_bare base) (wrapKeys_bare sub)
  | .call callee args =>
    exact congrArg₂ _ (congrArg _ (wrapKey?_bare (.call callee args)))
      (congrArg₂ _ (wrapKeys_bare callee) (listWrapKeys_bare args))
  | .unary _ arg => exact wrapKeys_bare arg
  | .update _ _ target => exact wrapKeys_bare target
  | .conditional test consequent alternate =>
    exact congrArg₂ _ (wrapKeys_bare test)
      (congrArg₂ _ (wrapKeys_bare consequent) (wrapKeys_bare alternate))
  | .array items => exact listWrapKeys_bare items
  | .object props => exact propWrapKeys_bare props
  | .number _ | .str _ | .bool _ | .null | .undefined | .ident _ | .this | .func _ => rfl

theorem listWrapKeys_bare (es : List Expr) :
    Expr.listWrapKeys (Expr.listBare es) = Expr.listWrapKeys es := by
  match es with
  | [] => rfl
  | e :: rest => exact congrArg₂ _ (wrapKeys_bare e) (listWrapKeys_bare rest)

theorem propWrapKeys_bare (ps : List (String × Expr)) :
    Expr.propWrapKeys (Expr.propBare ps) = Expr.propWrapKeys ps := by
  match ps with
  | [] => rfl
  | (_, e) :: rest => exact congrArg₂ _ (wrapKeys_bare e) (propWrapKeys_bare rest)

end

theorem fresh_listTolerant (h : Expr.Fresh es) : Expr.Fresh (Expr.listTolerant root es) := by
  induction es with
  | nil => trivial
  | cons e rest ih =>
    refine ⟨fun key hkey => ?_, ih h.2⟩
    rw [listWrapKeys_tolerant]
    exact h.1 key ((wrapKey?_tolerant root e).symm.trans hkey)

theorem fresh_tolerant : Equality.Keeps root fresh where
  plain {e} _ hcall hbinary := by
    cases e with
    | call callee args => exact absurd rfl (hcall callee args)
    | binary op left right => exact absurd rfl (hbinary op left right)
    | _ => trivial
  call h := fresh_listTolerant root h
  binary h := fresh_listTolerant root h
  equality h := fresh_listTolerant root h
  assign _ := trivial
  update _ := trivial

theorem fresh_listBare (es : List Expr) : Expr.Fresh (Expr.listBare es) ↔ Expr.Fresh es := by
  induction es with
  | nil => exact Iff.rfl
  | cons e rest ih =>
    show (∀ key, e.bare.wrapKey? = some key → key ∉ Expr.listWrapKeys (Expr.listBare rest)) ∧ _ ↔ _
    rw [wrapKey?_bare, listWrapKeys_bare]
    exact and_congr_right fun _ => ih

theorem fresh_ignoresPositions : fresh.IgnoresPositions where
  expr e := by
    cases e with
    | call callee args => exact fresh_listBare args
    | binary op left right => exact fresh_listBare [left, right]
    | _ => exact Iff.rfl
  decls _ := Iff.rfl
  named _ := Iff.rfl

end Forms

/-! ## Runs -/

/-- What is told of arguments: those of a namespace function show what they showed, and
what is wrapped shows what it was to show. -/
def Told : Event → Prop
  | .native _ _ _ m args => ∀ a ∈ args, a.Faithful m
  | .wrapped asked given => given = asked
  | _ => True

theorem watches : Upkeep.Watches (upkeep fresh fun _ => trivial) Told where
  history _ := trivial
  touch _ := trivial
  name _ _ := trivial
  wrapped hm h := given_eq_asked hm.apart h
  native hh hcall hargs hm _ _ := faithful_args hh hcall hm.apart hargs

end Arguments

/-- **Arguments show what they were written with**, unless the script touches them. Take a
script that does not wrap values itself, compile it strictly, and run what reads like the
result on any candles, under any settings. Then what is wrapped shows the value that it
was to show, some bars ago or now. And whenever a namespace function begins, each of its
arguments shows what it showed when it was evaluated, unless the history that it shows was
touched while the arguments after it were evaluated; and if that entered no script
function and assigned nothing, then an argument with a history of its own was not
touched. -/
theorem arguments_show_their_values {options : Options} {p q b : Program} {counters : Counters}
    (hstrict : options.unsupported = .strict) (hsource : p.root.body.All Arguments.source)
    (hq : p.compiled options = .ok (q, counters)) (hb : b.bare = q.bare) (receiver : Json)
    (config : Config) (candles : List Candle) :
    (∀ asked given,
      Event.wrapped asked given ∈ (Indicator.ofProgram b receiver).trace config candles →
      given = asked) ∧
    ∀ site ns f m args,
      Event.native site ns f m args ∈ (Indicator.ofProgram b receiver).trace config candles →
      ∀ a ∈ args, a.Faithful m := by
  obtain ⟨body, rfl, hall, -⟩ := Naming.compiled_shaped hq (Arguments.fresh_keeping _ hstrict)
    (Arguments.source_normal _ _) hsource (fun _ _ hl => hl.nodup_params) (fun _ _ => trivial)
    (Arguments.fresh_tolerant _)
  have hbody : b.root.body.All Arguments.fresh :=
    Program.all_of_bare Arguments.fresh_ignoresPositions hb hall
  have htold : ∀ e ∈ (Indicator.ofProgram b receiver).trace config candles, Arguments.Told e :=
    (Upkeep.clean_rows Arguments.watches (Arguments.script _ hbody)
      (fun w => ⟨rfl, Tame.fits_receiver b receiver⟩) candles
      ((Indicator.ofProgram b receiver).machine config)
      ⟨rfl, rfl, Arguments.kept_machine b receiver config⟩).1
  exact ⟨fun asked given h => htold _ h, fun site ns f m args h => htold _ h⟩

/-- Whether a namespace function began with a wrapped argument that has a history of its
own, and no script function was entered and nothing assigned since it was evaluated. -/
def Event.isCalm : Event → Bool
  | .native _ _ _ m args => args.any fun a =>
    a.key.isSome && !decide (a.Borrowed m) && !decide (Touch.stirred ∈ a.later)
  | _ => false

theorem Event.exists_of_isCalm {e : Event} (h : e.isCalm = true) :
    ∃ site ns f m args, e = .native site ns f m args ∧
      ∃ a ∈ args, a.key.isSome ∧ ¬ a.Borrowed m ∧ Touch.stirred ∉ a.later := by
  cases e with
  | native site ns f m args =>
    obtain ⟨a, ha, h⟩ := any_eq_true.1 h
    simp only [Bool.and_eq_true, Bool.not_eq_true', decide_eq_false_iff_not] at h
    exact ⟨site, ns, f, m, args, rfl, a, ha, h.1.1, h.1.2, h.2⟩
  | _ => cases h

/-- A call in an argument of a call: `c => { return math.max(1, math.max(2, 3)) }`. -/
def calmText : String :=
  "c => \x7b return math.max(1, math.max(2, 3)) \x7d"

set_option maxRecDepth 100000 in
theorem arguments_show_their_values_nested :
    ∃ p q counters, Options.unsupported {} = .strict ∧ parse calmText = .ok p ∧
      p.root.body.All Arguments.source ∧ p.compiled {} = .ok (q, counters) ∧ q.bare = q.bare ∧
      ∃ site ns f m args,
        Event.native site ns f m args ∈ (Indicator.ofProgram q .null).trace {} [.flat 1 1] ∧
        ∃ a ∈ args, a.key.isSome ∧ m.heap.current a.value = a.shown := by
  have h : Except.gives (fun p => decide (p.root.body.All Arguments.source) &&
      Except.gives (fun r => ((Indicator.ofProgram r.1 .null).trace {} [.flat 1 1]).any
        Event.isCalm) (p.compiled {})) (parse calmText) = true := by
    refine gives_parse String.toList_ofList ?_
    decide +kernel
  obtain ⟨p, hparse, h⟩ := Except.exists_of_gives h
  obtain ⟨hsource, h⟩ := Bool.and_eq_true_iff.1 h
  obtain ⟨⟨q, counters⟩, hq, h⟩ := Except.exists_of_gives h
  obtain ⟨e, he, hcalm⟩ := List.any_eq_true.1 h
  obtain ⟨site, ns, f, m, args, rfl, a, ha, hkey, hown, hstirred⟩ := Event.exists_of_isCalm hcalm
  have hsource := of_decide_eq_true hsource
  have hfaithful :=
    (arguments_show_their_values rfl hsource hq rfl .null {} _).2 site ns f m args he
  exact ⟨p, q, counters, rfl, hparse, hsource, hq, rfl, site, ns, f, m, args, he, a, ha, hkey,
    (hfaithful a ha).shows ((hfaithful a ha).calm hkey hown hstirred)⟩

/-- Whether a namespace function began with a wrapped argument that shows a smaller number
than it did when it was evaluated. -/
def Event.isOvertaken : Event → Bool
  | .native _ _ _ m args => args.any fun a =>
    a.key.isSome && match m.heap.current a.value, a.shown with
    | .number x, .number y => decide (x < y)
    | _, _ => false
  | _ => false

theorem Event.exists_of_isOvertaken {e : Event} (h : e.isOvertaken = true) :
    ∃ site ns f m args, e = .native site ns f m args ∧ ∃ a ∈ args, a.key.isSome ∧
      ∃ x y, m.heap.current a.value = .number x ∧ a.shown = .number y ∧ x < y := by
  cases e with
  | native site ns f m args =>
    obtain ⟨a, ha, h⟩ := any_eq_true.1 h
    obtain ⟨hkey, h⟩ := Bool.and_eq_true_iff.1 h
    refine ⟨site, ns, f, m, args, rfl, a, ha, hkey, ?_⟩
    split at h
    · rename_i x y hx hy
      exact ⟨x, y, hx, hy, of_decide_eq_true h⟩
    · cases h
  | _ => cases h

/-- A function that calls itself in an argument of a call:
`c => { function f(n) { return n <= 0 ? 0 : math.max(n, f(n - 1)) } return f(3) }`. -/
def overtakenText : String :=
  "c => \x7b function f(n) \x7b return n <= 0 ? 0 : math.max(n, f(n - 1)) \x7d return f(3) \x7d"

set_option maxRecDepth 100000 in
/-- A script function that is entered again in a later argument wraps its own argument
under the same key, and the function then begins with a number that it was not called
with. -/
theorem recursion_overtakes_argument :
    ∃ p q counters, parse overtakenText = .ok p ∧ p.compiled {} = .ok (q, counters) ∧
      ∃ site ns f m args,
        Event.native site ns f m args ∈ (Indicator.ofProgram q .null).trace {} [.flat 1 1] ∧
        ∃ a ∈ args, a.key.isSome ∧
          ∃ x y, m.heap.current a.value = .number x ∧ a.shown = .number y ∧ x < y := by
  have h : Except.gives (fun p =>
      Except.gives (fun r => ((Indicator.ofProgram r.1 .null).trace {} [.flat 1 1]).any
        Event.isOvertaken) (p.compiled {})) (parse overtakenText) = true := by
    refine gives_parse String.toList_ofList ?_
    decide +kernel
  obtain ⟨p, hparse, h⟩ := Except.exists_of_gives h
  obtain ⟨⟨q, counters⟩, hq, h⟩ := Except.exists_of_gives h
  obtain ⟨e, he, hovertaken⟩ := List.any_eq_true.1 h
  obtain ⟨site, ns, f, m, args, rfl, hargs⟩ := Event.exists_of_isOvertaken hovertaken
  exact ⟨p, q, counters, hparse, hq, site, ns, f, m, args, he, hargs⟩

end BarScript

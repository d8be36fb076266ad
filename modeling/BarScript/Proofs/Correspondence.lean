import BarScript.Machine.Eval
import BarScript.Proofs.Shape
import Mathlib.Data.List.Forall2

/-!
# Corresponding runs

Two computations on machines are compared step by step. What has to hold of
the two machines, and of the values and frames they handle, may depend on what
has been allocated so far, so a `Correspondence` is indexed by worlds that only
grow. Taking both machines to be the same one, a correspondence is an
invariant.

`Agree` says that two computations, run on corresponding machines, either both
end with corresponding results or both stop with the same error. After an error
of the script the machines still correspond; after an abort nothing is said of
them, since nothing runs on.
-/

namespace BarScript

open Machine Exec

/-! ## Lists in step -/

theorem forall₂_getElem? {α β : Type} {R : α → β → Prop} {l : List α} {l' : List β}
    (h : List.Forall₂ R l l') (i : Nat) : Option.Rel R l[i]? l'[i]? := by
  induction h generalizing i with
  | nil => exact .none
  | cons hv _ ih =>
    cases i with
    | zero => exact .some hv
    | succ i => simpa using ih i

theorem forall₂_set {α β : Type} {R : α → β → Prop} {l : List α} {l' : List β}
    (h : List.Forall₂ R l l') (i : Nat) {a : α} {b : β} (hab : R a b) :
    List.Forall₂ R (l.set i a) (l'.set i b) := by
  induction h generalizing i with
  | nil => exact .nil
  | cons hu hs ih =>
    cases i with
    | zero => exact .cons hab hs
    | succ i => exact .cons hu (ih i)

theorem optionRel_map {α β γ δ : Type} {R : α → β → Prop} {T : γ → δ → Prop} {f : α → γ}
    {g : β → δ} {o : Option α} {o' : Option β} (h : Option.Rel R o o')
    (hfg : ∀ a b, R a b → T (f a) (g b)) : Option.Rel T (f <$> o) (g <$> o') := by
  cases h with
  | none => exact .none
  | some hab => exact .some (hfg _ _ hab)

theorem forall₂_find? {α : Type} {R : α → α → Prop} {l l' : List (String × α)}
    (h : List.Forall₂ (fun p q => p.1 = q.1 ∧ R p.2 q.2) l l') (k : String) :
    Option.Rel R (Dict.find? k l) (Dict.find? k l') := by
  induction h with
  | nil => exact .none
  | @cons p q l l' hpq _ ih =>
    obtain ⟨a, v⟩ := p
    obtain ⟨b, v'⟩ := q
    obtain ⟨rfl, hv⟩ := hpq
    unfold Dict.find?
    by_cases hk : a = k
    · simpa [hk] using hv
    · simpa [hk] using ih

/-! ## Shapes of values -/

namespace Value

/-- Values of one kind that differ in references at most. -/
inductive Alike : Value → Value → Prop
  | na : Alike .na .na
  | number (x : Float) : Alike (.number x) (.number x)
  | bool (b : Bool) : Alike (.bool b) (.bool b)
  | str (s : String) : Alike (.str s) (.str s)
  | array (r r' : Ref) : Alike (.array r) (.array r')
  | object (r r' : Ref) : Alike (.object r) (.object r')
  | series (r r' : Ref) (offset : Nat) : Alike (.series r offset) (.series r' offset)
  | func (f : Func) (env env' : Env) : Alike (.func f env) (.func f env')
  | native (ns : Namespace) (name : String) : Alike (.native ns name) (.native ns name)
  | group (ns : Namespace) : Alike (.group ns) (.group ns)
  | context : Alike .context .context
  | bucket (b : Bucket) : Alike (.bucket b) (.bucket b)
  | contextFn (f : ContextFn) : Alike (.contextFn f) (.contextFn f)

@[refl] theorem Alike.refl (v : Value) : Alike v v := by
  cases v <;> constructor

/-- Whether a value refers to nothing on the heap. -/
def IsFree : Value → Prop
  | .array _ | .object _ | .series _ _ | .func _ _ => False
  | _ => True

/-- Whether a value is a view of a history. -/
def IsSeries : Value → Prop
  | .series _ _ => True
  | _ => False

end Value

/-- What a name stands for by itself refers to nothing. -/
theorem Machine.freeName?_free (h : freeName? name = some v) : v.IsFree := by
  unfold freeName? at h
  split at h
  · cases h; trivial
  · cases h; trivial
  · cases h; trivial
  · cases h; trivial
  · split at h
    · cases h
    · cases h; trivial
    · cases h

/-- How work on a machine ends. -/
abbrev Ending (α : Type) := EStateM.Result Halt Machine α

/-- Whether a run succeeds with something that passes a test. -/
def Ending.gives {α : Type} (test : α → Machine → Bool) : Ending α → Bool
  | .ok a m => test a m
  | .error _ _ => false

theorem Ending.exists_of_gives {α : Type} {r : Ending α} {test : α → Machine → Bool}
    (h : Ending.gives test r = true) : ∃ a m, r = .ok a m ∧ test a m = true := by
  cases r with
  | error e m => cases h
  | ok a m => exact ⟨a, m, rfl, h⟩

/-! ## Runs in sequence -/

namespace Exec

variable {α β : Type} {x : Exec α} {f : α → Exec β} {m m' : Machine}

theorem bind_ok (h : x m = .ok a m') : (x >>= f) m = f a m' := by
  show EStateM.bind x f m = _
  rw [EStateM.bind, h]

theorem bind_error (h : x m = .error e m') : (x >>= f) m = .error e m' := by
  show EStateM.bind x f m = _
  rw [EStateM.bind, h]

/-- A sequence depends on its first part only through how that ends. -/
theorem bind_congr (h : x m = y n) : (x >>= f) m = (y >>= f) n := by
  show EStateM.bind x f m = EStateM.bind y f n
  rw [EStateM.bind, EStateM.bind, h]

/-- A sequence that succeeds has two parts that do. -/
theorem bind_eq_ok (h : (x >>= f) m = .ok b m') : ∃ a m₁, x m = .ok a m₁ ∧ f a m₁ = .ok b m' := by
  cases hx : x m with
  | ok a m₁ =>
    rw [bind_ok hx] at h
    exact ⟨a, m₁, rfl, h⟩
  | error e m₁ =>
    rw [bind_error hx] at h
    cases h

theorem heap?_eq (g : Heap → Option α) :
    heap? g m = (g m.heap).elim (.error .endless m) fun a => .ok a m := by
  have hget : (get : Exec Machine) m = .ok m m := rfl
  refine (bind_ok hget).trans ?_
  cases g m.heap <;> rfl

theorem heap?_eq_ok {g : Heap → Option α} (h : heap? g m = .ok a m') :
    g m.heap = some a ∧ m' = m := by
  rw [heap?_eq] at h
  cases hg : g m.heap with
  | none =>
    rw [hg] at h
    cases h
  | some b =>
    rw [hg] at h
    cases h
    exact ⟨rfl, rfl⟩

end Exec

/-! ## Correspondences -/

/-- What corresponding machines, values and frames are, in worlds that grow. -/
structure Correspondence (W : Type) where
  /-- The shape of the scripts that run. -/
  shape : Shape
  /-- Worlds grow. -/
  le : W → W → Prop
  refl : ∀ w, le w w
  trans : ∀ {a b c}, le a b → le b c → le a c
  /-- Corresponding machines. -/
  rel : W → Machine → Machine → Prop
  /-- Corresponding values. -/
  val : W → Value → Value → Prop
  /-- Corresponding frames that a piece of script sees. -/
  env : W → Env → Env → Prop
  val_mono : ∀ {w w' v v'}, le w w' → val w v v' → val w' v v'
  env_mono : ∀ {w w' ρ ρ'}, le w w' → env w ρ ρ' → env w' ρ ρ'

namespace Correspondence

variable {W : Type} (C : Correspondence W) {α β γ δ : Type}

variable {Q P : W → α → β → Prop} {a : α} {b : β} {w' : W} {l l' : List Value}

/-- Corresponding endings: results that satisfy `Q`, or one error. -/
inductive Endings (w : W) (Q : W → α → β → Prop) : Ending α → Ending β → Prop
  | ok {w' : W} {a : α} {b : β} {m n : Machine} (grown : C.le w w') (rel : C.rel w' m n)
    (holds : Q w' a b) : Endings w Q (.ok a m) (.ok b n)
  | error {e : Halt} {m n : Machine}
    (rel : ∀ err, e = .error err → ∃ w', C.le w w' ∧ C.rel w' m n) :
    Endings w Q (.error e m) (.error e n)

/-- Computations that correspond wherever the machines do. -/
def Agree (w : W) (Q : W → α → β → Prop) (x : Exec α) (y : Exec β) : Prop :=
  ∀ m n, C.rel w m n → C.Endings w Q (x m) (y n)

/-- A computation that corresponds to itself. -/
abbrev Steady (w : W) (Q : W → α → α → Prop) (x : Exec α) : Prop :=
  C.Agree w Q x x

/-- Results that are the same and say nothing of the world. -/
def same (_ : W) (a b : α) : Prop := a = b

variable {C} {w : W} {x : Exec α} {y : Exec β}

theorem Endings.here {m n : Machine} (rel : C.rel w m n) (holds : Q w a b) :
    C.Endings w Q (.ok a m) (.ok b n) :=
  .ok (C.refl w) rel holds

theorem Endings.weaken {w₁ : W} {s : Ending α} {t : Ending β} (hw : C.le w w₁)
    (h : C.Endings w₁ P s t) (hPQ : ∀ w', C.le w₁ w' → ∀ a b, P w' a b → Q w' a b) :
    C.Endings w Q s t := by
  cases h with
  | ok grown rel holds => exact .ok (C.trans hw grown) rel (hPQ _ grown _ _ holds)
  | error rel =>
    refine .error fun err he => ?_
    obtain ⟨w', hle, hrel⟩ := rel err he
    exact ⟨w', C.trans hw hle, hrel⟩

theorem Agree.weaken (h : C.Agree w P x y) (hPQ : ∀ w', C.le w w' → ∀ a b, P w' a b → Q w' a b) :
    C.Agree w Q x y :=
  fun m n hmn => (h m n hmn).weaken (C.refl w) hPQ

theorem agree_pure (h : Q w a b) : C.Agree w Q (pure a) (pure b) :=
  fun _ _ hmn => .ok (C.refl w) hmn h

theorem agree_throw (e : Halt) : C.Agree w Q (throw e) (throw e) :=
  fun _ _ hmn => .error fun _ _ => ⟨w, C.refl w, hmn⟩

theorem agree_fail (e : RuntimeError) : C.Agree w Q (fail e) (fail e) :=
  agree_throw (.error e)

/-- **Sequences correspond** when their first parts do and, in every world grown
from there, their second parts do. -/
theorem Agree.bind {Q : W → γ → δ → Prop} {f : α → Exec γ} {g : β → Exec δ} (h : C.Agree w P x y)
    (hfg : ∀ w', C.le w w' → ∀ a b, P w' a b → C.Agree w' Q (f a) (g b)) :
    C.Agree w Q (x >>= f) (y >>= g) := by
  intro m n hmn
  show C.Endings w Q (EStateM.bind x f m) (EStateM.bind y g n)
  have hxy := h m n hmn
  unfold EStateM.bind
  generalize x m = s, y n = t at hxy ⊢
  cases hxy with
  | ok grown rel holds =>
    exact (hfg _ grown _ _ holds _ _ rel).weaken grown fun _ _ _ _ h => h
  | error rel => exact .error rel

theorem Agree.bind_same {x y : Exec α} {Q : W → γ → δ → Prop} {f : α → Exec γ} {g : α → Exec δ}
    (h : C.Agree w same x y) (hfg : ∀ w', C.le w w' → ∀ a, C.Agree w' Q (f a) (g a)) :
    C.Agree w Q (x >>= f) (y >>= g) :=
  h.bind fun w' hw a _ hab => hab ▸ hfg w' hw a

theorem agree_heap {f : Heap → α} {g : Heap → β}
    (h : ∀ m n, C.rel w m n → Q w (f m.heap) (g n.heap)) :
    C.Agree w Q (heap f) (heap g) :=
  fun m n hmn => .ok (C.refl w) hmn (h m n hmn)

theorem agree_context {f : Context → α} {g : Context → β}
    (h : ∀ m n, C.rel w m n → Q w (f m.context) (g n.context)) :
    C.Agree w Q (context f) (context g) :=
  fun m n hmn => .ok (C.refl w) hmn (h m n hmn)

theorem agree_heap_eq {f g : Heap → α} (h : ∀ m n, C.rel w m n → f m.heap = g n.heap) :
    C.Agree w same (heap f) (heap g) :=
  agree_heap h

theorem agree_context_eq {f g : Context → α} (h : ∀ m n, C.rel w m n → f m.context = g n.context) :
    C.Agree w same (context f) (context g) :=
  agree_context h

/-- Readings that a value which contains itself does not have. -/
theorem agree_heap? {f : Heap → Option α} {g : Heap → Option β}
    (h : ∀ m n, C.rel w m n → Option.Rel (Q w) (f m.heap) (g n.heap)) :
    C.Agree w Q (heap? f) (heap? g) := by
  intro m n hmn
  rw [heap?_eq, heap?_eq]
  have hfg := h m n hmn
  generalize f m.heap = o, g n.heap = o' at hfg ⊢
  cases hfg with
  | some hab => exact agree_pure hab m n hmn
  | none => exact agree_throw .endless m n hmn

theorem agree_heap?_eq {f g : Heap → Option α} (h : ∀ m n, C.rel w m n → f m.heap = g n.heap) :
    C.Agree w same (heap? f) (heap? g) := by
  refine agree_heap? fun m n hmn => ?_
  rw [h m n hmn]
  cases g n.heap with
  | none => exact .none
  | some a => exact .some rfl

/-- A computation that reads the machine and goes on with what it read. -/
theorem agree_of_rel (h : ∀ m n, C.rel w m n → C.Agree w Q x y) : C.Agree w Q x y :=
  fun m n hmn => h m n hmn m n hmn

/-- Corresponding values that a history, an array or an object may hold: none of
these ever holds a series. -/
def Held (C : Correspondence W) (w : W) (v v' : Value) : Prop :=
  C.val w v v' ∧ ¬ v.IsSeries

theorem Held.mono (hw : C.le w w') (h : C.Held w v v') : C.Held w' v v' :=
  ⟨C.val_mono hw h.1, h.2⟩

/-- Corresponding lists of values that may be held. -/
abbrev Items (C : Correspondence W) (w : W) : List Value → List Value → Prop :=
  List.Forall₂ (C.Held w)

/-- Entries with the same keys and corresponding values that may be held. -/
abbrev Fields (C : Correspondence W) (w : W) :
    List (String × Value) → List (String × Value) → Prop :=
  List.Forall₂ fun p q => p.1 = q.1 ∧ C.Held w p.2 q.2

abbrev Vals (C : Correspondence W) (w : W) : List Value → List Value → Prop :=
  List.Forall₂ (C.val w)

theorem Vals.mono (hw : C.le w w') (h : C.Vals w l l') : C.Vals w' l l' :=
  h.imp fun _ _ => C.val_mono hw

/-- Entries with the same keys and corresponding values. -/
abbrev Entries (C : Correspondence W) (w : W) :
    List (String × Value) → List (String × Value) → Prop :=
  List.Forall₂ fun p q => p.1 = q.1 ∧ C.val w p.2 q.2

theorem Items.vals (h : C.Items w l l') : C.Vals w l l' :=
  h.imp fun _ _ => And.left

mutual

/-- Roundings of one form, of corresponding values. -/
inductive Roundings (C : Correspondence W) (w : W) : Rounded → Rounded → Prop
  | value {v v' : Value} (h : C.Held w v v') : Roundings C w (.value v) (.value v')
  | array {l l' : List Rounded} (h : RoundingLists C w l l') : Roundings C w (.array l) (.array l')

inductive RoundingLists (C : Correspondence W) (w : W) : List Rounded → List Rounded → Prop
  | nil : RoundingLists C w [] []
  | cons {t t' : Rounded} {l l' : List Rounded} (h : Roundings C w t t')
    (hs : RoundingLists C w l l') : RoundingLists C w (t :: l) (t' :: l')

end

mutual

theorem Roundings.mono {w w' : W} (hw : C.le w w') {t t' : Rounded} :
    C.Roundings w t t' → C.Roundings w' t t'
  | .value h => .value (h.mono hw)
  | .array h => .array (h.mono hw)

theorem RoundingLists.mono {w w' : W} (hw : C.le w w') {l l' : List Rounded} :
    C.RoundingLists w l l' → C.RoundingLists w' l l'
  | .nil => .nil
  | .cons h hs => .cons (h.mono hw) (hs.mono hw)

end

/-- Statements that end in the same way, with corresponding values. -/
inductive Flows (C : Correspondence W) (w : W) : Flow → Flow → Prop
  | next : Flows C w .next .next
  | ret (h : C.val w v v') : Flows C w (.ret v) (.ret v')
  | breakLoop : Flows C w .breakLoop .breakLoop
  | continueLoop : Flows C w .continueLoop .continueLoop

/-- Hosts that take as many rounds, have corresponding receivers, and whose
calls correspond in every world grown from here. -/
structure Hosts (C : Correspondence W) (w : W) (host host' : Host) : Prop where
  rounds : host.rounds = host'.rounds
  receiver : C.val w host.receiver host'.receiver
  call : ∀ {w'}, C.le w w' → ∀ {f : Func} {ρ ρ' : Env} {args args' : List Value}, f.All C.shape →
    C.env w' ρ ρ' → C.Vals w' args args' →
    C.Agree w' C.val (host.call f ρ args) (host'.call f ρ' args')

theorem Hosts.mono (hw : C.le w w') (h : C.Hosts w host host') : C.Hosts w' host host' where
  rounds := h.rounds
  receiver := C.val_mono hw h.receiver
  call hw' := h.call (C.trans hw hw')

/-- Corresponding hosts, for a piece of script that sees corresponding frames. -/
structure Sites (C : Correspondence W) (w : W) (host host' : Host) (ρ ρ' : Env) : Prop extends
    Hosts C w host host' where
  env : C.env w ρ ρ'

theorem Sites.mono (hw : C.le w w') (h : C.Sites w host host' ρ ρ') : C.Sites w' host host' ρ ρ' :=
  ⟨h.toHosts.mono hw, C.env_mono hw h.env⟩

end Correspondence

end BarScript

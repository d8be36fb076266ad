import BarScript.Proofs.Regime.Work

/-!
# What calls keep

The functions of the namespaces and of the context under a regime. All that a namespace
function stores is collapsed first, and it fails for reasons of its own arguments. The one
failure that a caller has to account for is that of a stateful function without a key.
-/

namespace BarScript

open Machine List Library

namespace Library

/-- Whether a function of `ta` keeps state between bars. -/
def keepsState (name : String) : Bool :=
  name == "macd" || name == "cum" || (stateful? name).isSome

end Library

namespace Regime

variable {R : Regime} {args : List Value}

/-! ## Arguments -/

theorem lengthArg_keeps (function : String) (args : List Value) (i : Nat) (default : Option Nat) :
    R.KeepsAny (lengthArg function args i default) := by
  refine (keeps_heap (Q := fun r => ∀ e, r = .error e → e.IsCommon) fun m _ e he => ?_).bind
    fun r hr => ?_
  · unfold Library.length at he
    dsimp only at he
    split at he
    · cases he
    · split at he
      · cases he
        exact trivial
      · split at he
        · cases he
          exact trivial
        · cases he
  · cases r with
    | ok n => exact keeps_pure trivial
    | error e => exact keeps_fail (hr e rfl)

theorem fits_arg (hargs : ∀ v ∈ args, R.fits v) (i : Nat) : R.fits (arg args i) := by
  unfold arg
  rw [getD_eq_getElem?_getD]
  cases hv : args[i]? with
  | none => exact fits_na
  | some v => exact hargs v (mem_of_getElem? hv)

theorem keeps_number (f : Heap → Float) : R.Keeps R.fits (Exec.heap fun h => .number (f h)) :=
  keeps_heap fun _ _ => fits_number _

theorem keeps_bool (f : Heap → Bool) : R.Keeps R.fits (Exec.heap fun h => .bool (f h)) :=
  keeps_heap fun _ _ => fits_bool _

/-! ## New arrays and objects -/

theorem newArray_keeps {vs : List Value} (hvs : ∀ v ∈ vs, R.stores v) :
    R.Keeps R.fits (Exec.alloc fun h => h.newArray vs.toArray) :=
  keeps_alloc fun _ hm => ⟨R.newArray hm hvs, R.fits_of_not_func fun _ _ h => by cases h⟩

theorem newObject_keeps (hfields : ∀ f ∈ fields, R.stores f.2) :
    R.Keeps R.fits (Exec.alloc fun h => h.newObject (.ofList fields)) :=
  keeps_alloc fun _ hm => ⟨R.newObject hm hfields, R.fits_of_not_func fun _ _ h => by cases h⟩

/-! ## Technical analysis -/

theorem readingValue_keeps (reading : Reading) :
    R.Keeps R.fits (readingValue reading) := by
  cases reading with
  | number x => exact keeps_pure (fits_number x)
  | point p =>
    refine newArray_keeps fun v hv => ?_
    simp only [mem_cons, not_mem_nil, or_false] at hv
    rcases hv with rfl | rfl | rfl
    · exact stores_number _
    · exact stores_number _
    · exact stores_number _

theorem stateful_keeps (function : String) (key : Option String) (x : Float)
    (init : Except KernelError StateKernel) (hkey : key = none → ∀ m, R.inv m →
      R.fails (.error (.invalidArgument function .noCallId)) m) :
    R.Keeps R.fits (stateful function key x init) := by
  cases key with
  | none => exact keeps_throw (hkey rfl)
  | some id =>
    refine (keeps_context_any _).bind fun r _ => ?_
    cases r with
    | error e => exact keeps_fail trivial
    | ok p =>
      have hkernels : R.KeepsAny (Exec.modifyContext fun c => { c with kernels := p.2 }) :=
        fun _ hm => ⟨R.kernels _ hm, trivial⟩
      exact hkernels.bind fun _ _ => readingValue_keeps p.1

theorem unknown_keeps {Q : Value → Prop} (ns : Namespace) (name : String) :
    R.Keeps Q (unknown ns name) :=
  keeps_fail trivial

theorem ta_keeps (name : String) (args : List Value)
    (hkey : keepsState name = true → (splitKey args).2 = none → ∀ m, R.inv m →
      R.fails (.error (.invalidArgument ("ta." ++ name) .noCallId)) m) :
    R.Keeps R.fits (ta name args) := by
  have hnum : ∀ i : Nat, R.KeepsAny (Exec.heap fun h => num h (splitKey args).1 i) :=
    fun _ => keeps_heap fun _ _ => trivial
  unfold ta
  dsimp only
  split
  · refine (lengthArg_keeps _ _ _ _).bind fun _ _ => ?_
    refine (lengthArg_keeps _ _ _ _).bind fun _ _ => ?_
    refine (lengthArg_keeps _ _ _ _).bind fun _ _ => ?_
    exact (hnum 0).bind fun _ _ => stateful_keeps _ _ _ _ (hkey rfl)
  · exact (hnum 0).bind fun _ _ => stateful_keeps _ _ _ _ (hkey rfl)
  · exact (lengthArg_keeps _ _ _ _).bind fun _ _ => keeps_number _
  · exact keeps_bool _
  · exact keeps_bool _
  · split
    · next hstate =>
      refine (lengthArg_keeps _ _ _ _).bind fun _ _ => ?_
      refine (hnum 0).bind fun _ _ => stateful_keeps _ _ _ _ (hkey ?_)
      rw [keepsState, hstate, Option.isSome_some, Bool.or_true]
    · exact (lengthArg_keeps _ _ _ _).bind fun _ _ => keeps_number _
    · exact unknown_keeps _ _

/-! ## The other namespaces -/

theorem math_keeps (name : String) (args : List Value) : R.Keeps R.fits (math name args) := by
  unfold math
  split
  · exact keeps_bool _
  · exact keeps_number _
  · exact keeps_number _
  · exact keeps_number _
  · exact keeps_number _
  · exact keeps_number _
  · exact (lengthArg_keeps _ _ _ _).bind fun _ _ => keeps_number _
  · split
    · exact keeps_number _
    · exact unknown_keeps _ _

theorem elementIndex_keeps (function : String) (args : List Value) (i size : Nat) :
    R.KeepsAny (elementIndex function args i size) := by
  refine (keeps_heap_any _).bind fun x _ => ?_
  split
  · exact keeps_fail trivial
  · exact keeps_pure trivial

theorem modifyArray_keeps (r : Ref) {f : Array Value → Array Value}
    (hf : ∀ a, (∀ v ∈ a.toList, R.stores v) → ∀ v ∈ (f a).toList, R.stores v) :
    R.KeepsAny (Exec.modifyHeap fun h => h.modifyArray r f) :=
  keeps_modifyHeap fun _ hm => R.modifyArray hm hf

theorem arrayMethod_keeps (function name : String) (r : Ref) (hargs : ∀ v ∈ args, R.fits v) :
    R.Keeps R.fits (arrayMethod function name r args) := by
  have hsize : R.KeepsAny (Exec.heap fun h => (h.array r).size) := keeps_heap fun _ _ => trivial
  have hindex : ∀ n, R.KeepsAny (elementIndex function args 1 n) :=
    fun n => elementIndex_keeps function args 1 n
  have hna : R.Keeps R.fits (pure .na) := keeps_pure fits_na
  have hflag : R.KeepsAny (Exec.heap fun h => flag h args 1 true) :=
    keeps_heap fun _ _ => trivial
  unfold arrayMethod
  split
  · refine hsize.bind fun n _ => (hindex n).bind fun i _ => keeps_heap fun _ hm => ?_
    exact R.fits_of_stores (stores_element hm r i)
  · refine hsize.bind fun n _ => (hindex n).bind fun i _ => ?_
    refine (keeps_current (fits_arg hargs 2)).bind fun v hv => ?_
    refine (modifyArray_keeps r fun a ha u hu => ?_).bind fun _ _ => hna
    rw [Array.toList_setIfInBounds] at hu
    rcases mem_or_eq_of_mem_set hu with hu | rfl
    · exact ha u hu
    · exact hv
  · refine (keeps_current (fits_arg hargs 1)).bind fun v hv => ?_
    refine (modifyArray_keeps r fun a ha u hu => ?_).bind fun _ _ => hna
    rw [Array.toList_push, mem_append, mem_singleton] at hu
    rcases hu with hu | rfl
    · exact ha u hu
    · exact hv
  · refine (keeps_heap (Q := R.fits) fun m hm => ?_).bind fun v hv => ?_
    · cases hback : (m.heap.array r).back? with
      | none => exact fits_na
      | some v =>
        have hv := R.array hm r v (Array.mem_toList_iff.2 (Array.mem_of_back? hback))
        exact R.fits_of_stores hv
    · refine (modifyArray_keeps r fun a ha u hu => ha u ?_).bind fun _ _ => keeps_pure hv
      rw [Array.toList_pop] at hu
      exact mem_of_mem_dropLast hu
  · exact (modifyArray_keeps r fun _ _ _ hu => (not_mem_nil hu).elim).bind fun _ _ => hna
  · exact keeps_number _
  · exact keeps_number _
  · exact keeps_number _
  · exact keeps_number _
  · exact keeps_number _
  · exact hflag.bind fun _ _ => keeps_number _
  · exact hflag.bind fun _ _ => keeps_number _
  · exact unknown_keeps _ _

theorem array_keeps (name : String) (hargs : ∀ v ∈ args, R.fits v) :
    R.Keeps R.fits (Library.array name args) := by
  unfold Library.array
  split
  · refine (lengthArg_keeps _ _ _ _).bind fun size hsize => ?_
    refine (keeps_heap_any _).bind fun x _ => ?_
    rw [← toArray_replicate]
    refine newArray_keeps fun v hv => ?_
    rw [eq_of_mem_replicate hv]
    exact stores_number x
  · refine (keeps_heap (Q := fun vs : List Value => ∀ v ∈ vs, R.stores v) fun m hm v hv => ?_).bind
      fun vs hvs => newArray_keeps hvs
    obtain ⟨u, hu, rfl⟩ := mem_map.1 hv
    exact stores_current hm (hargs u hu)
  · refine Keeps.bind (Q := fun _ => True) ?_ fun r _ => arrayMethod_keeps _ name r hargs
    refine (keeps_heap_any _).bind fun v _ => ?_
    split
    · exact keeps_pure trivial
    · exact keeps_fail trivial

theorem core_keeps (name : String) (hargs : ∀ v ∈ args, R.fits v) :
    R.Keeps R.fits (core name args) := by
  unfold core
  split
  · exact keeps_bool _
  · refine keeps_heap fun m hm => ?_
    unfold nz
    dsimp only
    split
    · split
      · next w hw =>
        exact R.fits_of_stores (stores_current hm (hargs w (mem_of_getElem? hw)))
      · exact fits_number _
    · exact R.fits_of_stores (stores_current hm (fits_arg hargs 0))
  · exact unknown_keeps _ _

/-- **Namespace functions** keep what is kept. What has to be accounted for is a stateful one
without a key. -/
theorem call_keeps (ns : Namespace) (name : String) (hargs : ∀ v ∈ args, R.fits v)
    (hkey : ns = .ta → keepsState name = true → (splitKey args).2 = none →
      ∀ m, R.inv m → R.fails (.error (.invalidArgument ("ta." ++ name) .noCallId)) m) :
    R.Keeps R.fits (Library.call ns name args) := by
  cases ns with
  | ta => exact ta_keeps name args (hkey rfl)
  | math => exact math_keeps name args
  | array => exact array_keeps name hargs
  | core => exact core_keeps name hargs
  | data => exact unknown_keeps _ _

/-- **Functions of the context** keep what is kept. -/
theorem contextFn_keeps {R : Wide} (host : Host) (f : ContextFn) (hargs : ∀ v ∈ args, R.fits v) :
    R.Keeps R.fits (callValue host (.contextFn f) args) := by
  cases f with
  | init => exact init_keeps _ _ (fits_arg hargs 1)
  | param =>
    refine (keeps_heap_any _).bind fun key _ => ?_
    cases key with
    | some key => exact param_keeps _ key (fits_arg hargs 0)
    | none => exact keeps_fail trivial
  | precision => exact precision_keeps (fits_arg hargs 0)

/-! ## Frames

A regime that does not look at frames. -/

section Frames

variable (hframes : ∀ {m} fs, R.inv m → R.inv { m with heap := { m.heap with frames := fs } })

include hframes

theorem define_keeps (env : Env) (name : String) (v : Value) :
    R.KeepsAny (defineName env name v) := by
  cases env with
  | nil => exact keeps_pure trivial
  | cons r env => exact keeps_modifyHeap (f := fun h => h.define r name v) fun _ hm => hframes _ hm

theorem newFrame_keeps (d : Dict Value) : R.KeepsAny (Exec.alloc fun h => h.newFrame d) :=
  keeps_alloc fun _ hm => ⟨hframes _ hm, trivial⟩

theorem openFrame_keeps (env : Env) : R.KeepsAny (openFrame env) :=
  (newFrame_keeps hframes _).bind fun _ _ => keeps_pure trivial

theorem assignName_keeps (env : Env) (name : String) (v : Value)
    (hname : ∀ m, R.inv m → m.heap.frameOf? env name = none →
      R.fails (.error (.unknownIdentifier name)) m) : R.KeepsAny (assignName env name v) := by
  intro m hm
  unfold assignName
  have hread : Exec.heap (fun h => h.frameOf? env name) m = .ok (m.heap.frameOf? env name) m := rfl
  rw [Exec.bind_ok hread]
  cases hframe : m.heap.frameOf? env name with
  | some r => exact ⟨hframes _ hm, trivial⟩
  | none => exact ⟨hm, hname m hm hframe⟩

theorem hoist_keeps (env : Env) (stmts : List Stmt) : R.KeepsAny (hoist env stmts) := by
  induction stmts with
  | nil => exact keeps_pure trivial
  | cons s rest ih =>
    cases s with
    | func f =>
      unfold hoist
      cases f.name with
      | some id => exact (define_keeps hframes env id.name _).bind fun _ _ => ih
      | none => exact keeps_pure trivial
    | _ => exact ih

theorem bindPattern_keeps (env : Env) (target : Pattern) (v : Value) :
    R.KeepsAny (bindPattern env target v) := by
  cases target with
  | ident id => exact define_keeps hframes env id.name v
  | object props =>
    refine keeps_forM fun p _ => ?_
    exact (readMember_keeps v p.1).bind fun u _ => define_keeps hframes env p.2.name u
  | array items =>
    refine keeps_forM fun p _ => ?_
    obtain ⟨item, i⟩ := p
    cases item with
    | some id => exact (readElement_keeps v _).bind fun u _ => define_keeps hframes env id.name u
    | none => exact keeps_pure trivial

end Frames

theorem readName_keeps (env : Env) (name : String)
    (hfits : ∀ m v, R.inv m → m.heap.lookup? env name = some v → R.fits v)
    (hname : ∀ m, R.inv m → m.heap.lookup? env name = none → freeName? name = none →
      R.fails (.error (.unknownIdentifier name)) m) : R.Keeps R.fits (readName env name) := by
  intro m hm
  unfold readName
  have hread : Exec.heap (fun h => h.lookup? env name) m = .ok (m.heap.lookup? env name) m := rfl
  rw [Exec.bind_ok hread]
  cases hvalue : m.heap.lookup? env name with
  | some v => exact ⟨hm, hfits m v hm hvalue⟩
  | none =>
    cases hfree : freeName? name with
    | some v =>
      refine ⟨hm, R.fits_of_not_func fun f ρ hv => ?_⟩
      exact (hv ▸ freeName?_free hfree : (Value.func f ρ).IsFree).elim
    | none => exact ⟨hm, hname m hm hvalue hfree⟩

end Regime

end BarScript

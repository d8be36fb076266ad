import BarScript.Proofs.Trace.Watching

/-!
# Machines whose arguments have histories of their own

The context keeps the arguments of namespace functions in histories under keys. These
histories are there, and no two keys share one: a key that is new gets a history that
is new. This is an invariant of all runs, and with it goes that every function has the
shape of the script.
-/

namespace BarScript

open Machine

namespace Arguments

variable {S : Shape} {m m' : Machine}

/-- Every key has a history that is there, and no other key has it. -/
structure KeysApart (m : Machine) : Prop where
  inRange : ∀ {key r}, m.context.params.get? key = some r → r < m.heap.histories.size
  injective : ∀ {key key' r}, m.context.params.get? key = some r →
    m.context.params.get? key' = some r → key = key'

/-- More histories and the same keys keep arguments apart. -/
theorem KeysApart.of_params (h : KeysApart m) (hparams : m'.context.params = m.context.params)
    (hsize : m.heap.histories.size ≤ m'.heap.histories.size) : KeysApart m' where
  inRange hr := Nat.lt_of_lt_of_le (h.inRange (hparams ▸ hr)) hsize
  injective hr hr' := h.injective (hparams ▸ hr) (hparams ▸ hr')

theorem KeysApart.newParam (h : KeysApart m) : KeysApart ⟨(m.heap.newHistory s).2,
      { m.context with params := m.context.params.insert key m.heap.histories.size }⟩ := by
  have hcases : ∀ {k r}, (m.context.params.insert key m.heap.histories.size).get? k = some r →
      (k = key ∧ r = m.heap.histories.size) ∨ m.context.params.get? k = some r := fun {k r} hk => by
    by_cases hkey : key = k
    · subst hkey
      rw [Dict.get?_insert_self] at hk
      exact .inl ⟨rfl, (Option.some.inj hk).symm⟩
    · rw [Dict.get?_insert_of_ne _ hkey] at hk
      exact .inr hk
  refine ⟨fun {k r} hk => ?_, fun {k k' r} hk hk' => ?_⟩
  · show r < (m.heap.histories.push s).size
    rw [Array.size_push]
    rcases hcases hk with ⟨-, rfl⟩ | hk
    · exact Nat.lt_succ_self _
    · exact Nat.lt_succ_of_lt (h.inRange hk)
  · rcases hcases hk with ⟨hkey, hr⟩ | hk <;> rcases hcases hk' with ⟨hkey', hr'⟩ | hk'
    · exact hkey.trans hkey'.symm
    · exact absurd (hr ▸ h.inRange hk') (Nat.lt_irrefl _)
    · exact absurd (hr' ▸ h.inRange hk) (Nat.lt_irrefl _)
    · exact h.injective hk hk'

variable (S) in
/-- Functions have the shape of the script, whatever they see. -/
def outlook : Outlook where
  shape := S
  le _ _ := True
  sees _ _ := True
  refl _ := trivial
  trans _ _ := trivial
  sees_mono _ _ := trivial
  le_of_frames _ := trivial

variable (S) in
/-- What is kept by all runs of scripts of a shape. -/
structure Kept (m : Machine) : Prop where
  populated : m.heap.Populated ((outlook S).Fits {})
  apart : KeysApart m

theorem Kept.of_heap (hm : Kept S m) {h : Heap} (hp : h.Populated ((outlook S).Fits {}))
    (hsize : m.heap.histories.size ≤ h.histories.size) : Kept S { m with heap := h } :=
  ⟨hp, hm.apart.of_params rfl hsize⟩

variable (S) in
/-- **The histories of arguments stay apart** in all runs. -/
def upkeep (hnames : ∀ x, S.name x) : Upkeep where
  toOutlook := outlook S
  inv := Kept S
  populated hm := hm.populated
  newHistory {m s} hm hs := hm.of_heap (hm.populated.newHistory hs)
    (by
      show _ ≤ (m.heap.histories.push s).size
      rw [Array.size_push]
      exact Nat.le_succ _)
  newArray hm hl := hm.of_heap (hm.populated.newArray hl) (Nat.le_refl _)
  newObject {m l} hm hl := by
    refine hm.of_heap (hm.populated.newObject (Dict.ordered_ofList l) fun v hv => ?_)
      (Nat.le_refl _)
    obtain ⟨p, hp, rfl⟩ := List.mem_map.1 (Dict.mem_values_ofList hv)
    exact hl p hp
  newFrame {m l} hm hl _ := by
    refine ⟨trivial, hm.of_heap (hm.populated.newFrame fun v hv => ?_) (Nat.le_refl _),
      fun _ _ => trivial⟩
    obtain ⟨p, hp, rfl⟩ := List.mem_map.1 (Dict.mem_values_ofList hv)
    exact hl p hp
  modifyHistory {m r f} hm hf :=
    hm.of_heap (hm.populated.modifyHistory fun v hv => (hf _ v hv).elim id fun hv =>
      ⟨hm.populated.sound.history r v hv, hm.populated.history r v hv⟩)
      (Nat.le_of_eq Array.size_modify.symm)
  modifyArray {m r f} hm hf := by
    refine hm.of_heap (hm.populated.modifyArray (hf _ fun u hu => ?_)) (Nat.le_refl _)
    exact ⟨hm.populated.sound.array r u hu, hm.populated.array r u hu⟩
  insertField hm hv :=
    hm.of_heap (hm.populated.insertField hv.1 hv.2) (Nat.le_refl _)
  define hm _ hv :=
    ⟨trivial, hm.of_heap (hm.populated.define hv) (Nat.le_refl _)⟩
  context hm hc := ⟨hm.populated, hm.apart.of_params hc (Nat.le_refl _)⟩
  newParam {m s key} hm hs _ := by
    have hempty : ∀ v ∈ s.values, ¬ v.IsSeries ∧ (outlook S).Fits {} v := fun v hv => by
      rw [hs] at hv
      exact nomatch hv
    exact ⟨hm.populated.newHistory hempty, hm.apart.newParam⟩
  assigned _ := hnames _
  updated _ := hnames _

theorem kept_machine (p : Program) (receiver : Json) (config : Config) :
    Kept S ((Indicator.ofProgram p receiver).machine config) := by
  obtain ⟨-, hheap, -⟩ := Heap.ofJson_data receiver Heap.populated_empty
  have hnone : ∀ key, (Dict.empty : Dict Ref).get? key = none := fun _ => rfl
  exact ⟨hheap.imp fun _ hv => Value.fits_of_isData hv,
    fun hr => (nomatch (hnone _).symm.trans hr), fun hr => nomatch (hnone _).symm.trans hr⟩

/-- What the parameters of a script are bound to is the context, or nothing. -/
theorem fits_bindParams (ids : List Ident) (hargs : ∀ v ∈ args, v = .context) :
    ∀ p ∈ bindParams ids args, ∀ h, (outlook S).Fits h p.2 := by
  rintro ⟨x, v⟩ hp h
  rcases snd_of_mem_bindParams hp with rfl | hv
  · exact trivial
  · cases hargs v hv
    exact trivial

theorem script (hnames : ∀ x, S.name x) {p : Program} (hp : p.root.body.All S) :
    (upkeep S hnames).Script p where
  body := hp
  frame {m} ρ hm := by
    have hfits := fits_bindParams (S := S) p.root.params
      fun v (hv : v ∈ [Value.context]) => List.mem_singleton.1 hv
    obtain ⟨hle, hinv, -⟩ := (upkeep S hnames).newFrame hm (fun e he => hfits e he m.heap)
      fun _ _ => hnames _
    exact ⟨hle, hinv, trivial⟩

end Arguments

end BarScript

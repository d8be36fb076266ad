import BarScript.Proofs.Trace.Watching

/-!
# The name of the context stands for the context

A script refers to its context by name, and so does everything that compiling adds to
it. If no part of the script binds or assigns that name, then every frame that a piece
of the script can see has the context under it or has nothing: the name stands for
the context wherever it is read. This is an invariant of runs, for scripts that may
otherwise do what they like: unlike tame scripts they may assign to fields and to
elements of anything.
-/

namespace BarScript

open Machine Tame

namespace Hygiene

variable {root : String}

/-- The shape of scripts that leave the name of the context alone. -/
def shape (root : String) : Shape where
  expr
    | .assign _ (.ident id) _ => id.name ≠ root
    | .update _ _ (.ident id) => id.name ≠ root
    | _ => True
  name x := x ≠ root

/-- Frames that have the context under its name keep it there. -/
def Keeps (root : String) (h h' : Heap) : Prop :=
  ∀ r, (h.frame r).get? root = some .context → (h'.frame r).get? root = some .context

variable (root) in
/-- Functions see the context under its name. -/
def outlook : Outlook where
  shape := shape root
  le := Keeps root
  sees := Sees root
  refl _ _ hr := hr
  trans hab hbc r hr := hbc r (hab r hr)
  sees_mono hw hρ := hρ.mono hw
  le_of_frames {h h'} hframes r hr := by
    have hframe : h'.frame r = h.frame r := by
      unfold Heap.frame
      rw [hframes]
    exact hframe ▸ hr

/-- A frame of names other than the context's has nothing under that name. -/
theorem get?_ofList_eq_none {l : List (String × Value)} (hnames : ∀ p ∈ l, p.1 ≠ root) :
    (Dict.ofList l).get? root = none :=
  Dict.ofList_induction (P := fun d => d.get? root = none) rfl fun d hd p hp => by
    rw [Dict.get?_insert_of_ne _ (hnames p hp)]
    exact hd

variable (root) in
/-- **Scripts that leave the name of the context alone** keep it in every frame. -/
def upkeep : Upkeep where
  toOutlook := outlook root
  inv m := Tamed root (shape root) m.heap
  populated hm := hm.toPopulated
  newHistory hm hs := hm.newHistory hs
  newArray hm hl := hm.newArray hl
  newObject hm hl := hm.newObject hl
  newFrame {m l} hm hl hnames := by
    have hkeeps : Keeps root m.heap (m.heap.newFrame (.ofList l)).2 := frame_newFrame _
    refine ⟨hkeeps, hm.newFrame (fun v hv => ?_) fun v hv => ?_, fun ρ hρ => ?_⟩
    · obtain ⟨p, hp, rfl⟩ := List.mem_map.1 (Dict.mem_values_ofList hv)
      exact hl p hp
    · rw [get?_ofList_eq_none hnames] at hv
      exact nomatch hv
    · obtain ⟨r, hr, hroot⟩ := hρ
      exact ⟨r, List.mem_cons_of_mem _ hr, hkeeps r hroot⟩
  modifyHistory hm hf := hm.modifyHistory hf
  modifyArray hm hf := hm.modifyArray hf
  insertField hm hv := hm.insertField hv.1 hv.2
  define hm hname hv := ⟨frame_define hname, hm.define hname hv⟩
  context hm _ := hm
  newParam hm hs _ := hm.newHistory fun v hv => by
    rw [hs] at hv
    exact nomatch hv
  assigned h := h
  updated h := h

/-- Events that read the context under its name. -/
def Finds (root : String) (e : Event) : Prop :=
  ∀ v, e = .name root v → v = .ok .context

theorem watches : (upkeep root).Watches (Finds root) where
  history _ _ h := nomatch h
  touch _ _ h := nomatch h
  name {ρ x m} hm hρ := by
    intro v hv
    cases hv
    rw [Machine.readName_of_lookup? (hm.lookup? hρ)]
    rfl
  wrapped _ _ _ h := nomatch h
  native _ _ _ _ _ _ _ h := nomatch h

/-- A script that is handed the context under the name `root` and leaves that name
alone. -/
structure Script (root : String) (p : Program) : Prop where
  params : ∃ id : Ident, id.name = root ∧ p.root.params = [id]
  body : p.root.body.All (shape root)

/-- The frame of such a script's own parameter has the context under its name. -/
theorem Script.upkeep (hp : Script root p) : (upkeep root).Script p where
  body := hp.body
  frame {m} ρ hm := by
    obtain ⟨id, hid, hparams⟩ := hp.params
    have hd : Dict.ofList (bindParams p.root.params [.context]) =
        Dict.empty.insert root .context := by
      rw [hparams, ← hid]
      rfl
    rw [hd]
    refine ⟨frame_newFrame _, hm.newFrame (fun v hv => ?_) fun v hv => ?_,
      m.heap.frames.size, List.mem_cons_self, ?_⟩
    · rcases Dict.mem_values_insert hv with rfl | hv
      · trivial
      · cases hv
    · rw [Dict.get?_insert_self] at hv
      exact (Option.some.inj hv).symm
    · rw [Heap.frame_newFrame, if_pos rfl, Dict.get?_insert_self]

end Hygiene

end BarScript

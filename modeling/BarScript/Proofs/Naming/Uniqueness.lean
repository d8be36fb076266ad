import BarScript.Proofs.Naming.Lexical

/-!
# Slots are shared within one scope only

Scopes are opened, closed and filled with names in any order, and an order need not be
balanced: what is closed too often stays closed. Which scope is the innermost one at some
point can be told from the order alone, by matching what is closed with what was opened; a
scope is then known by the place at which it was opened. That is how the statement below
speaks about scopes. The slots themselves only have the kind of a scope and its number to
tell it from others, and the number is counted over all scopes of the kind that were ever
opened.
-/

namespace BarScript

open List

namespace Scopes

/-- What is done to scopes: one is opened, the innermost is closed, or a name is declared. -/
inductive Op where
  | push (kind : ScopeKind)
  | pop
  | declare (name : String) (bucket : Bucket)

namespace Op

/-- The scopes after something is done to them. -/
def apply (s : Scopes) : Op → Scopes
  | push kind => (s.push kind).2
  | pop => s.pop
  | declare name bucket => (s.declare name bucket).2

/-- The kind of the scope that is opened, if one is. -/
def opened? : Op → Option ScopeKind
  | push kind => some kind
  | _ => none

/-- The places at which the open scopes were opened, innermost first, after something is done
at a place. -/
def matching (place : Nat) (opened : List Nat) : Op → List Nat
  | push _ => place :: opened
  | pop => opened.tail
  | declare _ _ => opened

end Op

/-- The scopes before what is done at a place, from no scopes on. -/
def before (ops : List Op) (i : Nat) : Scopes :=
  (ops.take i).foldl Op.apply {}

/-- The places at which the scopes were opened that are still open at a place, innermost
first. -/
def openAt (ops : List Op) (i : Nat) : List Nat :=
  (ops.take i).zipIdx.foldl (fun opened (op, place) => op.matching place opened) []

/-- The place at which the innermost scope was opened, if there is a scope. -/
def innermostAt (ops : List Op) (i : Nat) : Option Nat :=
  (openAt ops i).head?

/-- The binding that a declaration at a place gives. -/
def declaredAt (ops : List Op) (i : Nat) (name : String) (bucket : Bucket) : Binding :=
  ((before ops i).declare name bucket).1

section Places

variable {ops : List Op} {i j : Nat} {op : Op}

theorem before_succ (h : ops[i]? = some op) : before ops (i + 1) = op.apply (before ops i) := by
  unfold before
  rw [take_add_one, h, foldl_append]
  rfl

theorem openAt_succ (h : ops[i]? = some op) :
    openAt ops (i + 1) = op.matching i (openAt ops i) := by
  have hlen : (ops.take i).length = i :=
    length_take_of_le (Nat.le_of_lt (List.getElem?_eq_some_iff.1 h).1)
  unfold openAt
  rw [take_add_one, h, zipIdx_append, foldl_append, hlen, Nat.zero_add]
  rfl

/-- The scopes of a kind that are opened before a place. -/
def openings (ops : List Op) (i : Nat) (kind : ScopeKind) : Nat :=
  ((ops.take i).filterMap Op.opened?).count kind

/-- The kind and the number of the scope that is opened at a place. -/
def scopeAt (ops : List Op) (i : Nat) : Option (ScopeKind × Nat) :=
  (ops[i]?.bind Op.opened?).map fun kind => (kind, openings ops i kind + 1)

theorem openings_succ (h : ops[i]? = some op) (kind : ScopeKind) :
    openings ops (i + 1) kind = openings ops i kind + op.opened?.toList.count kind := by
  unfold openings
  rw [take_add_one, h, filterMap_append, count_append]
  rfl

theorem openings_mono (kind : ScopeKind) (h : i ≤ j) : openings ops i kind ≤ openings ops j kind :=
  ((take_sublist_take_left h).filterMap Op.opened?).count_le kind

theorem scopeAt_ne_zero (i : Nat) : scopeAt ops i ≠ some (kind, 0) := by
  intro h
  obtain ⟨kind', -, hp⟩ := Option.map_eq_some_iff.1 h
  exact absurd (Prod.mk.inj hp).2 (Nat.succ_ne_zero _)

/-- **A scope is known by its kind and number**: no two places open the same. -/
theorem scopeAt_injective (hi : scopeAt ops i = some p) (hj : scopeAt ops j = some p) : i = j := by
  have hlt : ∀ {i j : Nat}, scopeAt ops i = some p → scopeAt ops j = some p → ¬ i < j := by
    intro i j hi hj hij
    obtain ⟨kind, hkind, rfl⟩ := Option.map_eq_some_iff.1 hi
    obtain ⟨kind', -, hp⟩ := Option.map_eq_some_iff.1 hj
    obtain ⟨rfl, hnumber⟩ := Prod.mk.inj hp
    obtain ⟨op, hop, hopened⟩ := Option.bind_eq_some_iff.1 hkind
    -- the earlier opening counts for the later one
    have hcount := openings_succ hop kind'
    rw [hopened, Option.toList_some, count_singleton_self] at hcount
    have hmono : openings ops (i + 1) kind' ≤ openings ops j kind' := openings_mono kind' hij
    omega
  exact Nat.le_antisymm (Nat.not_lt.1 (hlt hj hi)) (Nat.not_lt.1 (hlt hi hj))

/-- A declaration changes no kind and no number of a scope. -/
theorem frames_declare (s : Scopes) (name : String) (bucket : Bucket) :
    (s.declare name bucket).2.frames.map (fun f => some (f.kind, f.serial)) =
      s.frames.map fun f => some (f.kind, f.serial) := by
  show (s.mapInner _).frames.map _ = _
  unfold mapInner
  split
  · rfl
  · next hs => rw [hs]; rfl

theorem entered_declare (s : Scopes) (name : String) (bucket : Bucket) :
    (s.declare name bucket).2.entered = s.entered := by
  show (s.mapInner _).entered = _
  unfold mapInner
  split <;> rfl

theorem count_entered_before (h : i ≤ ops.length) (kind : ScopeKind) :
    (before ops i).entered.count kind = openings ops i kind := by
  induction i with
  | zero => rfl
  | succ i ih =>
    have hop := getElem?_eq_getElem h
    rw [before_succ hop, openings_succ hop, ← ih (Nat.le_of_succ_le h)]
    cases ops[i] with
    | push kind' => exact count_cons.trans (congrArg _ count_singleton.symm)
    | pop => rfl
    | declare name bucket => exact congrArg (List.count kind) (entered_declare _ name bucket)

/-- **The open scopes** are those that the order says are open. -/
theorem frames_before (h : i ≤ ops.length) :
    (before ops i).frames.map (fun f => some (f.kind, f.serial)) = (openAt ops i).map
    (scopeAt ops) := by
  induction i with
  | zero => rfl
  | succ i ih =>
    have hop := getElem?_eq_getElem h
    have ih := ih (Nat.le_of_succ_le h)
    rw [before_succ hop, openAt_succ hop]
    cases hi : ops[i] with
    | push kind =>
      have hscope : scopeAt ops i = some (kind, (before ops i).entered.count kind + 1) := by
        unfold scopeAt
        rw [hop, hi, count_entered_before (Nat.le_of_succ_le h)]
        rfl
      exact congrArg₂ List.cons hscope.symm ih
    | pop =>
      show (before ops i).frames.tail.map _ = (openAt ops i).tail.map _
      rw [map_tail, map_tail, ih]
    | declare name bucket => exact (frames_declare _ name bucket).trans ih

/-- The slot of a declaration, by the place at which the innermost scope was opened. Outside of
all scopes the number is zero, which no scope has. -/
theorem slot_declaredAt (h : i ≤ ops.length) (name : String) (bucket : Bucket) :
    ∃ p : ScopeKind × Nat, (declaredAt ops i name bucket).slot = slotName p.1 p.2 name ∧
      (innermostAt ops i = none ∧ p = (.global, 0) ∨
        ∃ place, innermostAt ops i = some place ∧ scopeAt ops place = some p) := by
  have hframes := frames_before h
  unfold declaredAt innermostAt declare
  cases hf : (before ops i).frames with
  | nil =>
    rw [hf] at hframes
    have hnone : openAt ops i = [] := map_eq_nil_iff.1 hframes.symm
    exact ⟨(.global, 0), rfl, .inl ⟨by rw [hnone]; rfl, rfl⟩⟩
  | cons f rest =>
    rw [hf] at hframes
    obtain ⟨place, outer, hopen, hplace, -⟩ := map_eq_cons_iff.1 hframes.symm
    exact ⟨(f.kind, f.serial), rfl, .inr ⟨place, by rw [hopen]; rfl, hplace⟩⟩

end Places

/-- **Slots are shared within one scope only.** Open and close scopes and declare names in any
order. Two declarations give the same slot exactly if they declare the same name and the
innermost scope is the same one, opened at the same place, or there is none for both. Nothing
in a name can make up for a difference of scopes. -/
theorem declarations_share_slots_within_scope (ops : List Op) {i j : Nat} {x y : String}
    {bucket bucket' : Bucket} (hi : ops[i]? = some (.declare x bucket))
    (hj : ops[j]? = some (.declare y bucket')) :
    (declaredAt ops i x bucket).slot = (declaredAt ops j y bucket').slot ↔
      x = y ∧ innermostAt ops i = innermostAt ops j := by
  have hle {i : Nat} {op : Op} (h : ops[i]? = some op) : i ≤ ops.length :=
    Nat.le_of_lt (List.getElem?_eq_some_iff.1 h).1
  obtain ⟨p, hp, hscope⟩ := slot_declaredAt (hle hi) x bucket
  obtain ⟨q, hq, hscope'⟩ := slot_declaredAt (hle hj) y bucket'
  rw [hp, hq]
  constructor
  · intro h
    obtain ⟨hkind, hnumber, rfl⟩ := slotName_inj h
    obtain rfl : p = q := Prod.ext hkind hnumber
    refine ⟨rfl, ?_⟩
    rcases hscope with ⟨hnone, rfl⟩ | ⟨place, hplace, hscope⟩ <;>
      rcases hscope' with ⟨hnone', hq⟩ | ⟨place', hplace', hscope'⟩
    · rw [hnone, hnone']
    · exact absurd hscope' (scopeAt_ne_zero place')
    · exact absurd (hq ▸ hscope) (scopeAt_ne_zero place)
    · rw [hplace, hplace', scopeAt_injective hscope hscope']
  · rintro ⟨rfl, h⟩
    rcases hscope with ⟨hnone, rfl⟩ | ⟨place, hplace, hscope⟩ <;>
      rcases hscope' with ⟨hnone', rfl⟩ | ⟨place', hplace', hscope'⟩
    · rfl
    · exact nomatch hnone.symm.trans (h.trans hplace')
    · exact nomatch hplace.symm.trans (h.trans hnone')
    · obtain rfl := Option.some.inj (hplace.symm.trans (h.trans hplace'))
      obtain rfl := Option.some.inj (hscope.symm.trans hscope')
      rfl

/-- Two branches next to each other that declare the same name, the second one with a branch
inside, and one closing too many. -/
def siblings : List Op :=
  [.push .branch, .declare "x" .let, .pop, .push .branch, .push .branch, .pop,
    .declare "x" .const, .pop, .pop, .declare "x" .let]

theorem declarations_share_slots_within_scope_siblings :
    siblings[1]? = some (.declare "x" .let) ∧ siblings[6]? = some (.declare "x" .const) ∧
      innermostAt siblings 1 = some 0 ∧ innermostAt siblings 6 = some 3 ∧
      ((declaredAt siblings 1 "x" .let).slot = (declaredAt siblings 6 "x" .const).slot ↔
        "x" = "x" ∧ innermostAt siblings 1 = innermostAt siblings 6) :=
  ⟨rfl, rfl, rfl, rfl, declarations_share_slots_within_scope siblings rfl rfl⟩

end Scopes

end BarScript

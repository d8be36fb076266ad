/-!
# Histories

A history holds one value per bar, newest first: index 0 is the current bar,
index 1 the bar before it. A capped history forgets the oldest values when a
new bar is pushed; a cap below one counts as one, so that the current value is
never lost.
-/

namespace BarScript

/-- Values by bars ago, newest first, with an optional cap. -/
structure History (α : Type u) where
  /-- The values, newest first. -/
  values : List α := []
  /-- How many values are kept. -/
  capacity : Option Nat := none
deriving Repr

namespace History

variable {α : Type u}

instance : Inhabited (History α) := ⟨{}⟩

def new (capacity : Option Nat) : History α :=
  { capacity := capacity.map (Nat.max 1) }

def cut (capacity : Option Nat) (values : List α) : List α :=
  match capacity with
  | none => values
  | some c => values.take c

def push (h : History α) (v : α) : History α :=
  { h with values := cut h.capacity (v :: h.values) }

def withCurrent (v : α) (capacity : Option Nat) : History α :=
  (new capacity).push v

def length (h : History α) : Nat :=
  h.values.length

def get? (h : History α) (barsAgo : Nat) : Option α :=
  h.values[barsAgo]?

def current? (h : History α) : Option α :=
  h.get? 0

/-- Replaces the value of the current bar; an empty history gets its first. -/
def setCurrent (h : History α) (v : α) : History α :=
  match h.values with
  | [] => { h with values := [v] }
  | _ :: older => { h with values := v :: older }

/-- Whether the history reaches `barsAgo` bars back. -/
def reaches (h : History α) (barsAgo : Nat) : Bool :=
  decide (barsAgo < h.values.length)

/-- Replaces the value `barsAgo` bars ago, if the history reaches that far. -/
def set (h : History α) (barsAgo : Nat) (v : α) : History α :=
  { h with values := h.values.set barsAgo v }

/-- Begins a new bar that carries the current value on; an empty history stays
empty. -/
def advance (h : History α) : History α :=
  match h.values with
  | [] => h
  | v :: _ => h.push v

def chronological (h : History α) : List α :=
  h.values.reverse

end History

end BarScript

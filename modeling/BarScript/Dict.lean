/-!
# Dictionaries in key order

A finite map from strings, kept as a list of entries in ascending order of the
keys. Objects of a script, columns of an output and the named histories of a
context are dictionaries; whoever lists one sees its keys in order, by code
point.
-/

namespace BarScript

/-- A finite map from strings, its entries in ascending order of the keys. -/
structure Dict (α : Type u) where
  /-- The entries. -/
  entries : List (String × α)
deriving Repr

namespace Dict

variable {α : Type u} {β : Type v}

instance : Inhabited (Dict α) := ⟨⟨[]⟩⟩

def empty : Dict α := ⟨[]⟩

def find? (key : String) : List (String × α) → Option α
  | [] => none
  | (k, v) :: rest => if k == key then some v else find? key rest

def get? (d : Dict α) (key : String) : Option α :=
  find? key d.entries

/-- Entries with one more, replacing an entry of the same key. -/
def put (key : String) (value : α) : List (String × α) → List (String × α)
  | [] => [(key, value)]
  | (k, v) :: rest =>
    if k == key then (key, value) :: rest
    else if key < k then (key, value) :: (k, v) :: rest
    else (k, v) :: put key value rest

def insert (d : Dict α) (key : String) (value : α) : Dict α :=
  ⟨put key value d.entries⟩

def keys (d : Dict α) : List String :=
  d.entries.map Prod.fst

def values (d : Dict α) : List α :=
  d.entries.map Prod.snd

/-- The dictionary with every value replaced. -/
def mapValues (f : α → β) (d : Dict α) : Dict β :=
  ⟨d.entries.map fun (k, v) => (k, f v)⟩

/-- The dictionary of a list of entries; of two with one key the later
stays. -/
def ofList (entries : List (String × α)) : Dict α :=
  entries.foldl (fun d (k, v) => d.insert k v) empty

end Dict

end BarScript

/-!
# Tables

A table maps keys to values and keeps the order in which its keys came. Setting a key that is there
already changes its value and leaves its place. The keys of most tables are texts.
-/
namespace LazyModules

/-- Texts and their values in order of insertion. -/
abbrev Table (α : Type) := List (String × α)

namespace Table

variable {κ α : Type}

def keys (t : List (κ × α)) : List κ := t.map Prod.fst

variable [DecidableEq κ]

def find? (t : List (κ × α)) (k : κ) : Option α := List.lookup k t

def contains (t : List (κ × α)) (k : κ) : Bool := (find? t k).isSome

def insert : List (κ × α) → κ → α → List (κ × α)
  | [], k, v => [(k, v)]
  | (k', v') :: t, k, v => if k' = k then (k', v) :: t else (k', v') :: insert t k v

/-- Sets the keys of another table, in its order. -/
def insertAll (t entries : List (κ × α)) : List (κ × α) :=
  entries.foldl (fun t e => insert t e.1 e.2) t

end Table

end LazyModules

/-! # Ordered tables

Rows of keys and values in the order in which the keys first came. A key that comes again
keeps its place; which of its values counts is up to the operation used.
-/

namespace NeoListing

abbrev Table (κ α : Type) := List (κ × α)

namespace Table

variable {κ α : Type} [BEq κ]

def get? (t : Table κ α) (k : κ) : Option α := t.lookup k

def contains (t : Table κ α) (k : κ) : Bool := (t.get? k).isSome

/-- Sets the value of a key: the last value counts. -/
def put (k : κ) (v : α) : Table κ α → Table κ α
  | [] => [(k, v)]
  | (k', v') :: rest => if k' == k then (k', v) :: rest else (k', v') :: put k v rest

/-- Adds a key unless it is there: the first value counts. -/
def putNew (k : κ) (v : α) (t : Table κ α) : Table κ α :=
  if t.contains k then t else t ++ [(k, v)]

def ofRows (rows : List (κ × α)) : Table κ α :=
  rows.foldl (fun t r => put r.1 r.2 t) []

def ofFirstRows (rows : List (κ × α)) : Table κ α :=
  rows.foldl (fun t r => putNew r.1 r.2 t) []

end Table

end NeoListing

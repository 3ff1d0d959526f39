import NeoListing.Number.Binary64
import NeoListing.Text.Basic

/-! # JSON values

Integers and floating-point numbers are told apart, and the members of an object keep
their order.
-/

namespace NeoListing

inductive Json where
  | null
  | bool (b : Bool)
  | int (n : Int)
  | float (x : Binary64)
  | text (s : Text)
  | array (items : List Json)
  | object (members : List (Text × Json))
  deriving Repr, Inhabited

namespace Json

/-- Sets a member. A name that is already there keeps its place and takes the new value. -/
def setMember (name : Text) (value : Json) : List (Text × Json) → List (Text × Json)
  | [] => [(name, value)]
  | (n, v) :: rest => if n = name then (n, value) :: rest else (n, v) :: setMember name value rest

def ofMembers (members : List (Text × Json)) : Json :=
  .object (members.foldl (fun acc m => setMember m.1 m.2 acc) [])

def find? (members : List (Text × Json)) (name : String) : Option Json :=
  members.lookup (Text.ofString name)

/-- Whether a value counts as present: not null, false, zero or empty. -/
def isTruthy : Json → Bool
  | .null => false
  | .bool b => b
  | .int n => n != 0
  | .float x => !x.isZero
  | .text s => !s.isEmpty
  | .array items => !items.isEmpty
  | .object members => !members.isEmpty

end Json

end NeoListing

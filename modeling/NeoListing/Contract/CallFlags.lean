import NeoListing.Table
import NeoListing.Text.Blank
import NeoListing.Text.Integer
import NeoListing.Text.Split

/-! # Call flags

What a called contract may do, as a set of four bits. Some sets have a name of their own.
-/

namespace NeoListing.CallFlags

def names : Table Nat String :=
  [(0, "None"), (1, "ReadStates"), (2, "WriteStates"), (3, "States"), (4, "AllowCall"),
    (5, "ReadOnly"), (8, "AllowNotify"), (15, "All")]

/-- Takes the named sets out of `remaining`, largest first, and gives what is left and the
names taken, in ascending order. -/
def takeNamed : List (Nat × String) → Nat → List String → Nat × List String
  | [], remaining, taken => (remaining, taken)
  | (value, name) :: rest, remaining, taken =>
    if value ≠ 0 ∧ remaining &&& value = value then
      takeNamed rest (remaining - value) (name :: taken)
    else takeNamed rest remaining taken

/-- A set with a name goes by it; another by the fewest names that make it up. A number
that is no such set stands for itself, if it can be written. -/
def text : Int → Option String
  | .ofNat n =>
    match names.get? n with
    | some name => some name
    | none =>
      let (remaining, taken) := takeNamed names.reverse n []
      if remaining = 0 then some (", ".intercalate taken) else Text.decimal? n
  | n => Text.decimal? n

structure UnknownFlag where
  name : Text
  deriving DecidableEq, Repr

def UnknownFlag.message (e : UnknownFlag) : Text := "Unknown call flag: " ++ e.name

def value? (name : Text) : Option Nat :=
  (names.find? (fun row => Text.ofString row.2 == name)).map Prod.fst

def union : List Text → Except UnknownFlag Nat
  | [] => .ok 0
  | name :: rest =>
    match value? name with
    | none => .error ⟨name⟩
    | some v => (union rest).map (v ||| ·)

def parse (t : Text) : Except UnknownFlag Nat :=
  union ((Text.pieces (.scalar ',') t).map Text.trim)

/-- The set that a number stands for. A negative number is the complement of the bits
below: within the four known bits where it fits, otherwise within its own length. -/
def ofInt : Int → Int
  | .ofNat n => n
  | .negSucc m =>
    if m < 16 then 15 - (m : Int)
    else (Nat.pow 2 ((m + 1).log2 + 1) : Nat) - ((m : Int) + 1)

end NeoListing.CallFlags

import NeoListing.Text.Basic

/-! # Entries of a listing

A listing is a row of entries. Each belongs to the address of an instruction.
-/

namespace NeoListing

inductive Entry where
  | methodStart (address : Int) (name : Text)
  | source (address : Int) (fileName : Text) (line : Int) (text : Text)
  /-- An instruction; operand and comment are empty where there is none. -/
  | instruction (address : Int) (name operand : String) (comment : Text)
  | methodEnd (address : Int) (name : Text)
  deriving DecidableEq, Repr

def Entry.address : Entry → Int
  | methodStart address _ => address
  | source address _ _ _ => address
  | instruction address _ _ _ => address
  | methodEnd address _ => address

end NeoListing

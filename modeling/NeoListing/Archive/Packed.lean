import NeoListing.Bytes

/-! # Unpacked data -/

namespace NeoListing

structure Unpacked where
  bytes : Bytes
  /-- Whether the data says itself that it ends here. -/
  ended : Bool
  deriving DecidableEq, Repr

inductive Unpacked.Stop where
  | dataEnds
  | invalid
  deriving DecidableEq, Repr

end NeoListing

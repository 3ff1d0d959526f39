import NeoListing.Text.Integer

/-! # The machine

Two limits are not the program's own: how deep its stack is and how much fits in memory.
-/

namespace NeoListing

structure Machine where
  /-- The most containers of a JSON text that may be open at a time. -/
  depth : Nat
  /-- The widest column of digits that fits in memory. -/
  room : Nat
  /-- A machine that runs at all has room for every integer that can be written. -/
  digitLimit_le_room : Text.digitLimit ≤ room

/-- The machine of a given depth with the least room. -/
def Machine.ofDepth (depth : Nat) : Machine := ⟨depth, Text.digitLimit, Nat.le_refl _⟩

end NeoListing

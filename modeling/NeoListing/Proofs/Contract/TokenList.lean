import NeoListing.Proofs.Listing.CommentDefined
import NeoListing.Proofs.Listing.InstructionLine
import NeoListing.Proofs.Vm.ScriptNormalForm

/-! # The list of method tokens

The list gives four lines to each token, headed by the operand that refers to it. The comment
on an instruction with that operand says the same about the token; an operand that refers to no
token heads no lines.
-/

namespace NeoListing

namespace MethodToken

def linesFrom (index : Nat) : List Parts → List Text
  | [] => []
  | p :: rest => p.lines index ++ linesFrom (index + 1) rest

end MethodToken

namespace Comment

end Comment

namespace MethodToken

end MethodToken

end NeoListing

import NeoListing.Contract.Input
import NeoListing.Debug.SideFile
import NeoListing.Listing.Plan
import NeoListing.Listing.Render
import NeoListing.Settings

/-! # Failures of a run

Some failures are expected and reported in one line. The others are faults that no part of
the program answers for.
-/

namespace NeoListing

inductive Failure where
  | settings (e : Settings.Error)
  | input (e : Contract.InputError)
  | tokens (e : MethodToken.ListError)
  | debugInfo (e : DebugInfo.LoadError)
  | manifest (e : Manifest.LoadError)
  | decode (e : DecodeError)
  | document (e : FileError)
  | comment (e : Comment.Error)
  | render (e : Render.Error)
  /-- A line holds what the output cannot encode. -/
  | unwritable
  deriving Repr

namespace Failure

def message : Failure → Text
  | settings e => e.message
  | input e => e.message
  | tokens e => e.message
  | debugInfo e => e.message
  | manifest e => e.message
  | decode e => e.message
  | document e => e.message
  | comment e => e.message
  | render e => e.message
  | unwritable => "the output cannot encode a line"

end Failure

/-- Files that cannot be read are reported; a path that cannot exist is not. -/
def FileError.isReported : FileError → Bool
  | .cannotRead _ _ => true
  | .noFileName _ => false
  | .nullInPath => false

namespace Failure

def inputIsReported : Contract.InputError → Bool
  | .notFound => true
  | .inlineText _ => false
  | .file e => e.isReported
  | .nef _ => true
  | .node (.unshaped _) => false
  | .node (.broken _) => false
  | .node _ => true
  | .state e => e.isMalformed

def debugInfoIsReported : DebugInfo.LoadError → Bool
  | .file e => e.isReported
  | .archive _ _ .entryOutsideFile => true
  | .archive _ _ .bzip2 => true
  | _ => false

def isReported : Failure → Bool
  | settings _ => true
  | input e => inputIsReported e
  | tokens _ => false
  | debugInfo e => debugInfoIsReported e
  | manifest (.file e) => e.isReported
  | manifest _ => false
  | decode _ => true
  | document e => e.isReported
  | comment _ => false
  | render _ => false
  | unwritable => false

end Failure

end NeoListing

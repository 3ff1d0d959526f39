import NeoListing.Text.Basic

/-! # Notices

What a run has to say about its progress besides its result.
-/

namespace NeoListing

inductive Notice where
  | fetching (contract url : Text)
  | readingFile (path : Text)
  | noDebugInfo (path : Text)
  /-- A manifest was passed over; `kind` names the kind of fault. -/
  | unreadableManifest (path : Text) (kind : String)
  | unusableDebugInfo (path reason : Text)
  | decoded (count : Nat)
  | repeatedStart (address : Int) (method : Text)
  | repeatedEnd (address : Int) (method : Text)
  | repeatedPoint (address : Int)
  | unknownDocument (address document : Int)
  | linePastEnd (address line : Int) (file : Text)
  deriving DecidableEq, Repr

namespace Notice

def speaker : Notice → String
  | fetching _ _ => "dumpnef.loader"
  | readingFile _ => "dumpnef.loader"
  | noDebugInfo _ => "dumpnef.debug_info"
  | unreadableManifest _ _ => "dumpnef.debug_info"
  | unusableDebugInfo _ _ => "dumpnef.cli"
  | decoded _ => "dumpnef.cli"
  | repeatedStart _ _ => "dumpnef.analysis.alignment"
  | repeatedEnd _ _ => "dumpnef.analysis.alignment"
  | repeatedPoint _ => "dumpnef.analysis.alignment"
  | unknownDocument _ _ => "dumpnef.analysis.alignment"
  | linePastEnd _ _ _ => "dumpnef.analysis.alignment"

def message : Notice → Text
  | fetching contract url => "Fetching contract " ++ contract ++ " from " ++ url
  | readingFile path => "Reading NEF file " ++ path
  | noDebugInfo path => "No debug info found for " ++ path
  | unreadableManifest path _ => "Ignoring unreadable manifest " ++ path
  | unusableDebugInfo path reason => "Ignoring debug info for " ++ path ++ ": " ++ reason
  | decoded count => "Decoded " ++ toString count ++ " instructions"
  | repeatedStart address method =>
    "Duplicate method start at " ++ toString address ++ ": " ++ method
  | repeatedEnd address method =>
    "Duplicate method end at " ++ toString address ++ ": " ++ method
  | repeatedPoint address => "Duplicate sequence point at " ++ toString address
  | unknownDocument address document =>
    "Sequence point at " ++ toString address ++ " references unknown document "
      ++ toString document
  | linePastEnd address line file =>
    "Sequence point at " ++ toString address ++ " references line " ++ toString line
      ++ " past the end of " ++ file

def line (n : Notice) : Text := "DEBUG " ++ n.speaker ++ ": " ++ n.message

/-- The lines that the error output shows: a fault that was passed over adds its kind. -/
def lines (n : Notice) : List Text :=
  match n with
  | unreadableManifest _ kind => [n.line, "<" ++ kind ++ ">"]
  | _ => [n.line]

end Notice

end NeoListing

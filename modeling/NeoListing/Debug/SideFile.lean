import NeoListing.Archive.Zip
import NeoListing.Debug.Info
import NeoListing.File.Tree
import NeoListing.Json.Reader
import NeoListing.Machine

/-! # Debug information beside a contract file

It is found in an archive or, where there is none, in a plain file.
-/

namespace NeoListing.DebugInfo

inductive LoadError where
  | emptyName (e : Path.EmptyName)
  | file (e : FileError)
  | archive (entry source : Text) (e : Zip.Error)
  | archiveText (entry source : Text) (e : Text.Utf8.Error)
  | text (path : Text) (e : Text.Utf8.Error)
  | json (e : Json.ReadError)
  | content (e : Error)
  deriving Repr

/-- Whether the fault means that the debug information is unusable. Others are not of its
making and end the run. -/
def LoadError.isUnusable : LoadError → Bool
  | .emptyName _ => false
  | .file _ => false
  | .archive _ _ e => e.isDamage
  | .archiveText _ _ _ => true
  | .text _ _ => true
  | .json (.malformed _ _ _ _) => true
  | .json _ => false
  | .content (.invalidNumber _) => false
  | .content _ => true

def LoadError.message : LoadError → Text
  | .emptyName e => e.message
  | .file e => e.message
  | .archive entry source e =>
    if e.isDamage then "Cannot read " ++ entry ++ " from " ++ source ++ ": " ++ e.message
    else e.message
  | .archiveText entry source e =>
    "Cannot read " ++ entry ++ " from " ++ source ++ ": " ++ e.message
  | .text path e => path ++ " is not valid UTF-8: " ++ e.message
  | .json (.malformed what line column position) =>
    "Debug info is not valid JSON: " ++ (Json.ReadError.malformed what line column position).message
  | .json e => e.message
  | .content e => e.message

def archiveText (entry source : Text) (content : Bytes) : Except LoadError String :=
  match Zip.read content entry with
  | .error e => .error (.archive entry source e)
  | .ok bytes =>
    match Text.Utf8.decode bytes with
    | .error e => .error (.archiveText entry source e)
    | .ok s => .ok s

def plainText (path : Text) (content : Bytes) : Except LoadError String :=
  match Text.fileText content with
  | .error e => .error (.text path e)
  | .ok s => .ok s

def suffixed (p : Path) (suffix : String) : Except LoadError Path :=
  match p.withSuffix suffix with
  | .error e => .error (.emptyName e)
  | .ok q => .ok q

def content? (files : FileTree) (p : Path) : Except LoadError (Option Bytes) :=
  match files.isFile p with
  | .error e => .error (.file e)
  | .ok false => .ok none
  | .ok true =>
    match files.read p with
    | .error e => .error (.file e)
    | .ok content => .ok (some content)

def sideText (files : FileTree) (contract : Path) : Except LoadError (Option String) := do
  let archive ← suffixed contract ".nefdbgnfo"
  let plain ← suffixed contract ".debug.json"
  match ← content? files archive with
  | some content => return some (← archiveText plain.name archive.text content)
  | none =>
    match ← content? files plain with
    | some content => return some (← plainText plain.text content)
    | none => return none

def ofText (machine : Machine) (s : String) : Except LoadError DebugInfo :=
  match Json.read machine.depth s with
  | .error e => .error (.json e)
  | .ok v =>
    match ofJson v with
    | .error e => .error (.content e)
    | .ok info => .ok info

def load (machine : Machine) (files : FileTree) (contract : Path) :
    Except LoadError (Option DebugInfo) := do
  match ← sideText files contract with
  | some s => return some (← ofText machine s)
  | none => return none

end NeoListing.DebugInfo

import NeoListing.File.Tree
import NeoListing.Json.Reader
import NeoListing.Json.Shape
import NeoListing.Machine
import NeoListing.Notice

/-! # Manifests

A manifest names the methods of a contract and the addresses at which they start. It is a
help only, so a faulty one counts as none.
-/

namespace NeoListing.Manifest

def row (method : Json) : Except Json.ShapeError (Int × Text) := do
  let offset ← (← method.member "offset").toInt
  let name ← method.member "name"
  return (offset, name.plain)

def rows : List Json → Except Json.ShapeError (List (Int × Text))
  | [] => .ok []
  | method :: rest => do
    let r ← row method
    return r :: (← rows rest)

/-- The starts of the methods. Of several with one address the first counts. -/
def starts (manifest : Json) : Except Json.ShapeError (Table Int Text) := do
  let abi ← manifest.memberOr "abi" (.object [])
  let methods ← abi.memberOr "methods" (.array [])
  return Table.ofFirstRows (← rows (← methods.items))

inductive Fault where
  | file (e : FileError)
  | text (e : Text.Utf8.Error)
  | json (e : Json.ReadError)
  | shape (e : Json.ShapeError)

def Fault.kind : Fault → String
  | .file e => e.kind
  | .text _ => "UnicodeDecodeError"
  | .json (.malformed _ _ _ _) => "JSONDecodeError"
  | .json (.tooManyDigits _) => "ValueError"
  | .json .tooDeep => "RecursionError"
  | .shape (.noMember _) => "KeyError"
  | .shape (.noOperation _ _) => "AttributeError"
  | .shape (.notAnInteger _) => "ValueError"
  | .shape .notANumber => "ValueError"
  | .shape .infinite => "OverflowError"
  | .shape _ => "TypeError"

def read (machine : Machine) (content : Bytes) : Except Fault (Table Int Text) :=
  match Text.fileText content with
  | .error e => .error (.text e)
  | .ok s =>
    match Json.read machine.depth s with
    | .error e => .error (.json e)
    | .ok v =>
      match starts v with
      | .error e => .error (.shape e)
      | .ok t => .ok t

inductive LoadError where
  | emptyName (e : Path.EmptyName)
  | file (e : FileError)
  /-- An address that is infinite. -/
  | infinite
  /-- Containers that are nested too deeply. -/
  | tooDeep
  deriving DecidableEq, Repr

def LoadError.message : LoadError → String
  | .emptyName e => e.message
  | .file e => e.message
  | .infinite => Json.ShapeError.message .infinite
  | .tooDeep => Json.ReadError.message .tooDeep

def readFile (machine : Machine) (files : FileTree) (p : Path) : Except Fault (Table Int Text) :=
  match files.read p with
  | .error e => .error (.file e)
  | .ok content => read machine content

/-- What reading gives, faults passed over with a notice. -/
def accept (p : Path) :
    Except Fault (Table Int Text) → Except LoadError (Table Int Text × List Notice)
  | .ok t => .ok (t, [])
  | .error (.shape .infinite) => .error .infinite
  | .error (.json .tooDeep) => .error .tooDeep
  | .error fault => .ok ([], [.unreadableManifest p.text fault.kind])

def load (machine : Machine) (files : FileTree) (contract : Path) :
    Except LoadError (Table Int Text × List Notice) :=
  match contract.withSuffix ".manifest.json" with
  | .error e => .error (.emptyName e)
  | .ok p =>
    match files.isFile p with
    | .error e => .error (.file e)
    | .ok false => .ok ([], [])
    | .ok true => accept p (readFile machine files p)

end NeoListing.Manifest

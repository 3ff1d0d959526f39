import NeoListing.File.Path
import NeoListing.Table
import NeoListing.Text.Lines

/-! # Files

The files that a run can see, by the names that lead to them from the working directory or
from the root. Places above the working directory are directories, reached by steps
upwards.
-/

namespace NeoListing

inductive FileFault where
  | notFound
  | notADirectory
  | isADirectory
  | nameTooLong
  deriving DecidableEq, Repr

def FileFault.text : FileFault → String
  | .notFound => "[Errno 2] No such file or directory"
  | .notADirectory => "[Errno 20] Not a directory"
  | .isADirectory => "[Errno 21] Is a directory"
  | .nameTooLong => "[Errno 36] File name too long"

inductive FileError where
  | cannotRead (fault : FileFault) (path : Text)
  /-- The path holds code points that no name of a file can have. -/
  | noFileName (path : Text)
  | nullInPath
  deriving DecidableEq, Repr

def FileError.message : FileError → String
  | .cannotRead fault path => fault.text ++ ": " ++ Text.quoted path
  | .noFileName path => Text.quoted path
  | .nullInPath => "embedded null byte"

def FileError.kind : FileError → String
  | .cannotRead .notFound _ => "FileNotFoundError"
  | .cannotRead .notADirectory _ => "NotADirectoryError"
  | .cannotRead .isADirectory _ => "IsADirectoryError"
  | .cannotRead .nameTooLong _ => "OSError"
  | .noFileName _ => "UnicodeEncodeError"
  | .nullInPath => "ValueError"

inductive FileNode where
  | file (content : Bytes)
  | directory
  deriving DecidableEq, Repr

/-- Nodes by the names that lead to them, of which a slash is the first in a path from the
root. The root, the working directory and the places above it have no row. -/
abbrev FileTree := Table (List Bytes) FileNode

namespace FileTree

/-! ## Names -/

/-- The bytes of a code point in the name of a file. Those from U+DC80 to U+DCFF stand for
single bytes that are not valid where they are. -/
def pointBytes? : CodePoint → Option Bytes
  | .scalar c => some (String.utf8EncodeChar c)
  | .surrogate index =>
    if 0x480 ≤ index.val ∧ index.val < 0x500 then some [UInt8.ofNat (index.val - 0x400)] else none

def nameBytes? (name : Text) : Option Bytes := (name.mapM pointBytes?).map List.flatten

def rootName : Bytes := [0x2F]

def upName : Bytes := [0x2E, 0x2E]

/-- A path in bytes: the place where it starts, the names that follow, and how long it is
written out. -/
structure Way where
  start : List Bytes
  names : List Bytes
  length : Nat

def way? (p : Path) : Option Way := do
  let names ← p.parts.mapM nameBytes?
  let whole ← nameBytes? p.text
  return ⟨if p.root = [] then [] else [rootName], names, whole.length⟩

/-! ## Places -/

def isUpwards (names : List Bytes) : Bool := names.all (· == upName)

def node? (tree : FileTree) (names : List Bytes) : Option FileNode :=
  if isUpwards names ∨ names = [rootName] then some .directory else tree.get? names

def above (names : List Bytes) : List Bytes :=
  if names = [rootName] then names
  else if isUpwards names then names ++ [upName]
  else names.dropLast

def step (here : List Bytes) (name : Bytes) : List Bytes :=
  if name = upName then above here else here ++ [name]

/-- Adds the directories on a way, also those that it leaves again, and gives its end. -/
def makeDirectories (tree : FileTree) (here : List Bytes) : List Bytes → FileTree × List Bytes
  | [] => (tree, here)
  | name :: rest =>
    let next := step here name
    let tree := if (tree.node? next).isSome then tree else Table.put next .directory tree
    makeDirectories tree next rest

def addAt (way : Way) (node : FileNode) (tree : FileTree) : FileTree :=
  match node, way.names.getLast? with
  | .file _, some name =>
    let (tree, here) := makeDirectories tree way.start way.names.dropLast
    Table.put (step here name) node tree
  | _, _ => (makeDirectories tree way.start way.names).1

def add (path : Text) (node : FileNode) (tree : FileTree) : FileTree :=
  match way? (Path.ofText path) with
  | some way => addAt way node tree
  | none => tree

/-! ## Reading -/

def walk (tree : FileTree) (here : List Bytes) : List Bytes → Except FileFault FileNode
  | [] =>
    match tree.node? here with
    | some node => .ok node
    | none => .error .notFound
  | name :: rest =>
    match tree.node? here with
    | none => .error .notFound
    | some (.file _) => .error .notADirectory
    | some .directory =>
      if 255 < name.length then .error .nameTooLong else walk tree (step here name) rest

def find (tree : FileTree) (way : Way) : Except FileFault FileNode :=
  if 4096 ≤ way.length then .error .nameTooLong else walk tree way.start way.names

def hasNull (p : Path) : Bool := p.text.any (·.toNat == 0)

/-- Whether a path leads to a file. Only a name that is too long is an error. -/
def isFile (tree : FileTree) (p : Path) : Except FileError Bool :=
  match way? p with
  | none => .ok false
  | some way =>
    if hasNull p then .ok false
    else match tree.find way with
      | .ok (.file _) => .ok true
      | .error .nameTooLong => .error (.cannotRead .nameTooLong p.text)
      | _ => .ok false

def read (tree : FileTree) (p : Path) : Except FileError Bytes :=
  match way? p with
  | none => .error (.noFileName p.text)
  | some way =>
    if hasNull p then .error .nullInPath
    else match tree.find way with
      | .ok (.file content) => .ok content
      | .ok .directory => .error (.cannotRead .isADirectory p.text)
      | .error fault => .error (.cannotRead fault p.text)

def sourceLines (tree : FileTree) (path : Text) : Except FileError (List String) :=
  (tree.read (Path.ofText path)).map Text.sourceLines

def sourceTexts (tree : FileTree) (path : Text) : Except FileError (List Text) :=
  (tree.sourceLines path).map (·.map Text.ofString)

end FileTree

end NeoListing

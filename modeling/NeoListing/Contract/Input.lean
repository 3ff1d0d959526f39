import NeoListing.Contract.Nef
import NeoListing.Contract.State
import NeoListing.Node.Session

/-! # Where a contract comes from

A contract is given as a file, as a script written out in Base64 or hexadecimal, or as the
name of a deployed contract that a node is asked for.
-/

namespace NeoListing

namespace Contract

/-- A script written out. Behind the mark of hexadecimal numbers only such digits may
follow; otherwise Base64 is tried first. -/
def decodeInline (text : Text) : Except Base64.Error (Option Bytes) :=
  let text := Text.trim text
  match ScriptHash.dropHexMark text with
  | some digits => .ok (Hex.decode digits).toOption
  | none =>
    match Base64.decode text with
    | .ok bytes => .ok (some bytes)
    | .error .notAscii => .error .notAscii
    | .error _ => .ok (Hex.decode text).toOption

inductive InputError where
  | notFound
  | inlineText (e : Base64.Error)
  | file (e : FileError)
  | nef (e : Nef.Error)
  | node (e : Node.Error)
  | state (e : StateError)
  deriving Repr

def InputError.message : InputError → Text
  | .notFound => "Input must be a path to an .nef file or a Base64 or Hex encoded Neo.VM script"
  | .inlineText e => e.message
  | .file e => e.message
  | .nef e => e.message
  | .node e => e.message
  | .state e => e.message

structure Loading where
  result : Except InputError Contract
  session : Node.Session
  notices : List Notice

def ofFile (files : FileTree) (p : Path) : Except InputError Contract :=
  match files.read p with
  | .error e => .error (.file e)
  | .ok content =>
    match Nef.parse content with
    | .error e => .error (.nef e)
    | .ok nef => .ok ⟨nef.script, nef.tokens, some p, []⟩

def ofInline (source : Text) : Except InputError Contract :=
  match decodeInline source with
  | .ok (some script) => .ok ⟨script, [], none, []⟩
  | .ok none => .error .notFound
  | .error e => .error (.inlineText e)

/-- Whether the source names a file; a name that is too long does not. -/
def namesFile (files : FileTree) (source : Text) : Bool :=
  match files.isFile (Path.ofText source) with
  | .ok b => b
  | .error _ => false

def loadLocal (files : FileTree) (session : Node.Session) (source : Text) : Loading :=
  let p := Path.ofText source
  if namesFile files source then ⟨ofFile files p, session, [.readingFile p.text]⟩
  else ⟨ofInline source, session, []⟩

def loadDeployed (session : Node.Session) (source url : Text) : Loading :=
  let (state, session) := session.contractState ⟨source, url⟩
  let result := match state with
    | .error e => .error (.node e)
    | .ok state =>
      match ofState state with
      | .error e => .error (.state e)
      | .ok contract => .ok contract
  ⟨result, session, [.fetching source url]⟩

/-- Loads a contract: from a node if its address is given, otherwise from a file or from
the source text itself. -/
def load (files : FileTree) (session : Node.Session) (source : Text) (url : Option Text) :
    Loading :=
  match url with
  | some url => if url = [] then loadLocal files session source else loadDeployed session source url
  | none => loadLocal files session source

end Contract

end NeoListing

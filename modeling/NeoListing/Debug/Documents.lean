import NeoListing.Debug.Info
import NeoListing.File.DocumentName
import NeoListing.File.Path
import NeoListing.Table

/-! # Source documents

Documents are read when they are first needed and then kept. One that could not be read is
tried again the next time.
-/

namespace NeoListing

structure Document where
  fileName : Text
  lines : List Text
  deriving DecidableEq, Repr

abbrev DocumentCache := Table Int Document

namespace DebugInfo

def documentPath (info : DebugInfo) (document : Text) : Text :=
  match info.root with
  | some root =>
    if root = [] then document else ((Path.ofText root).join (Path.ofText document)).text
  | none => document

def pathAt? (info : DebugInfo) (index : Int) : Option Text :=
  if index < 0 then none else (info.documents[index.toNat]?).map info.documentPath

end DebugInfo

namespace Document

/-- What comes of asking for a document: the document if there is one with this index, the
cache afterwards, and the path that had to be looked up. -/
structure Answer (ε : Type) where
  result : Except ε (Option Document)
  cache : DocumentCache
  lookedUp : Option Text

def get {ε : Type} (info : DebugInfo) (lookup : Text → Except ε (List Text))
    (cache : DocumentCache) (index : Int) : Answer ε :=
  match info.pathAt? index with
  | none => ⟨.ok none, cache, none⟩
  | some path =>
    match cache.get? index with
    | some document => ⟨.ok (some document), cache, none⟩
    | none =>
      match lookup path with
      | .error e => ⟨.error e, cache, some path⟩
      | .ok lines =>
        let document := ⟨DocumentName.ofPath path, lines⟩
        ⟨.ok (some document), Table.put index document cache, some path⟩

end Document

end NeoListing

import NeoListing.Debug.Documents
import NeoListing.Listing.Comment
import NeoListing.Listing.Entry
import NeoListing.Notice

/-! # The plan of a listing

Instructions are interleaved with what is known about their addresses: before an
instruction stand the start of a method and the source line, after it the end of a method.
Of several records for one address the first counts.
-/

namespace NeoListing

structure Landmarks where
  starts : Table Int Text
  ends : Table Int Text
  points : Table Int SequencePoint

namespace Landmarks

def empty : Landmarks := ⟨[], [], []⟩

abbrev Noted := Landmarks × List Notice

def addPoint (acc : Noted) (p : SequencePoint) : Noted :=
  let (marks, notices) := acc
  (⟨marks.starts, marks.ends, marks.points.putNew p.address p⟩,
    if marks.points.contains p.address then notices ++ [.repeatedPoint p.address] else notices)

def addStart (acc : Noted) (m : DebugMethod) : Noted :=
  let (marks, notices) := acc
  (⟨marks.starts.putNew m.first m.fullName, marks.ends, marks.points⟩,
    if marks.starts.contains m.first then notices ++ [.repeatedStart m.first m.fullName]
    else notices)

def addEnd (acc : Noted) (m : DebugMethod) : Noted :=
  let (marks, notices) := acc
  (⟨marks.starts, marks.ends.putNew m.last m.fullName, marks.points⟩,
    if marks.ends.contains m.last then notices ++ [.repeatedEnd m.last m.fullName] else notices)

def addMethod (acc : Noted) (m : DebugMethod) : Noted :=
  m.points.foldl addPoint (addEnd (addStart acc m) m)

def ofDebugInfo (info : DebugInfo) : Noted :=
  info.methods.foldl addMethod (empty, [])

/-- Without debug information only the starts of methods may be known. -/
def ofMethodNames (names : Table Int Text) : Landmarks := ⟨names, [], []⟩

end Landmarks

/-- The text that a span covers on its first line, if there is such a line. A span over
several lines runs to the end of the first. -/
def sourceText (lines : List Text) (start stop : Position) : Option Text :=
  if start.line < 1 then none
  else match lines[(start.line - 1).toNat]? with
    | none => none
    | some line =>
      let tail := line.drop (start.column - 1).toNat
      some (if start.line = stop.line then tail.take (stop.column - start.column).toNat else tail)

namespace Plan

inductive Error (ε : Type) where
  | document (e : ε)
  | comment (e : Comment.Error)
  deriving Repr

/-- What grows while a plan is made: the documents read, the paths looked up and the
notices. It stays available when the plan fails. -/
structure Progress where
  cache : DocumentCache
  lookedUp : List Text
  notices : List Notice

abbrev Maker (ε : Type) := ExceptT (Error ε) (StateM Progress)

variable {ε : Type}

def note (n : Notice) : Maker ε Unit :=
  modify fun s => ⟨s.cache, s.lookedUp, s.notices ++ [n]⟩

structure Sources (ε : Type) where
  info : Option DebugInfo
  methodNames : Table Int Text
  context : Comment.Context
  lookup : Text → Except ε (List Text)

def document? (sources : Sources ε) (index : Int) : Maker ε (Option Document) := do
  match sources.info with
  | none => return none
  | some info =>
    let s ← get
    let answer := Document.get info sources.lookup s.cache index
    set (⟨answer.cache, s.lookedUp ++ answer.lookedUp.toList, s.notices⟩ : Progress)
    match answer.result with
    | .ok document => return document
    | .error e => throw (.document e)

/-- The source line of a sequence point; a point that leads nowhere is noted. -/
def sourceEntry (sources : Sources ε) (p : SequencePoint) : Maker ε (List Entry) := do
  match ← document? sources p.document with
  | none =>
    note (.unknownDocument p.address p.document)
    return []
  | some document =>
    match sourceText document.lines p.start p.stop with
    | none =>
      note (.linePastEnd p.address p.start.line document.fileName)
      return []
    | some text => return [.source p.address document.fileName p.start.line text]

def instructionEntry (context : Comment.Context) (i : Instruction) : Maker ε Entry :=
  match Comment.ofInstruction context i with
  | .ok comment => return .instruction i.address i.opcode.name (Bytes.dashed i.operand) comment
  | .error e => throw (.comment e)

def group (sources : Sources ε) (marks : Landmarks) (i : Instruction) : Maker ε (List Entry) := do
  let address : Int := i.address
  let source ← match marks.points.get? address with
    | some p => sourceEntry sources p
    | none => pure []
  let instruction ← instructionEntry sources.context i
  return ((marks.starts.get? address).map (Entry.methodStart address)).toList ++ source
    ++ [instruction] ++ ((marks.ends.get? address).map (Entry.methodEnd address)).toList

def groups (sources : Sources ε) (marks : Landmarks) : List Instruction → Maker ε (List Entry)
  | [] => return []
  | i :: rest => do
    let entries ← group sources marks i
    return entries ++ (← groups sources marks rest)

def landmarks (sources : Sources ε) : Landmarks.Noted :=
  match sources.info with
  | some info => Landmarks.ofDebugInfo info
  | none => (Landmarks.ofMethodNames sources.methodNames, [])

/-- The plan, or what made it fail, and in either case the progress up to there. -/
def build (sources : Sources ε) (instructions : List Instruction) :
    Except (Error ε) (List Entry) × Progress :=
  let (marks, notices) := landmarks sources
  (groups sources marks instructions).run.run ⟨[], [], notices⟩

end Plan

end NeoListing

import NeoListing.Json.Shape
import NeoListing.Text.Split

/-! # Debug information

A compiler can leave a record of which source a script came from: the documents, the
methods with the addresses they cover, and for single addresses the span of source text.
Numbers in it may use the decimal digits of any script.
-/

namespace NeoListing

/-- A place in a document; lines and columns count from one. -/
structure Position where
  line : Int
  column : Int
  deriving DecidableEq, Repr

structure SequencePoint where
  address : Int
  document : Int
  start : Position
  stop : Position
  deriving DecidableEq, Repr

structure DebugMethod where
  scope : Text
  name : Text
  first : Int
  last : Int
  points : List SequencePoint
  deriving DecidableEq, Repr

def DebugMethod.fullName (m : DebugMethod) : Text := m.scope ++ "." ++ m.name

structure DebugInfo where
  documents : List Text
  /-- Where documents with a relative path are found. -/
  root : Option Text
  methods : List DebugMethod
  deriving DecidableEq, Repr

namespace DebugInfo

inductive Error where
  | notAnObject
  | notArrays
  | notPaths
  | invalidRoot (v : Json)
  | methodNotAnObject (v : Json)
  | invalidName (v : Json)
  | invalidRange (name : Text) (v : Json)
  | pointsNotAnArray (name : Text)
  | invalidPoint (v : Json)
  /-- A number with too many digits. -/
  | invalidNumber (e : Text.IntegerError)
  deriving Repr

def Error.message : Error → String
  | .notAnObject => "Debug info must be a JSON object"
  | .notArrays => "Debug info 'documents' and 'methods' must be arrays"
  | .notPaths => "Debug info 'documents' must hold path strings"
  | .invalidRoot v => "Invalid document-root: " ++ v.display
  | .methodNotAnObject v => "Debug info method must be an object, got " ++ v.display
  | .invalidName v => "Invalid method name: " ++ v.display
  | .invalidRange name v => "Invalid range for method " ++ Text.quoted name ++ ": " ++ v.display
  | .pointsNotAnArray name =>
    "Sequence points of method " ++ Text.quoted name ++ " must be an array"
  | .invalidPoint v => "Invalid sequence point: " ++ v.display
  | .invalidNumber e => e.message

/-! ## Numbers in a pattern -/

structure Numeral where
  negative : Bool
  digits : List Char

inductive Piece where
  | natural
  | integer
  | mark (c : Char)

def readDigits (negative : Bool) (cs : List Char) : Option (Numeral × List Char) :=
  let digits := cs.takeWhile Text.isDigit
  if digits.isEmpty then none else some (⟨negative, digits⟩, cs.dropWhile Text.isDigit)

/-- Matches a whole text, which may end in one line feed, and gives its numbers. -/
def matchPieces : List Piece → List Char → Option (List Numeral)
  | [], cs => if cs.isEmpty || cs == ['\n'] then some [] else none
  | .mark c :: more, cs =>
    match cs with
    | d :: rest => if d = c then matchPieces more rest else none
    | [] => none
  | .natural :: more, cs => do
    let (n, rest) ← readDigits false cs
    return n :: (← matchPieces more rest)
  | .integer :: more, cs => do
    let (n, rest) ← readDigits (Text.isNegative cs) (if Text.isNegative cs then cs.drop 1 else cs)
    return n :: (← matchPieces more rest)

def rangePattern : List Piece := [.natural, .mark '-', .natural]

def pointPattern : List Piece :=
  [.natural, .mark '[', .integer, .mark ']', .natural, .mark ':', .natural, .mark '-', .natural,
    .mark ':', .natural]

def Numeral.value (n : Numeral) : Except Error Int :=
  match Text.boundedDigits n.digits with
  | .ok v => .ok (Text.applySign n.negative v)
  | .error e => .error (.invalidNumber e)

def values : List Numeral → Except Error (List Int)
  | [] => .ok []
  | n :: rest => do
    let v ← n.value
    return v :: (← values rest)

def numbersOf (pattern : List Piece) (refusal : Error) : Json → Except Error (List Int)
  | .text s =>
    match s.chars?.bind (matchPieces pattern) with
    | some numerals => values numerals
    | none => .error refusal
  | _ => .error refusal

/-! ## Reading -/

def readPoint (v : Json) : Except Error SequencePoint := do
  match ← numbersOf pointPattern (.invalidPoint v) v with
  | [address, document, startLine, startColumn, stopLine, stopColumn] =>
    return ⟨address, document, ⟨startLine, startColumn⟩, ⟨stopLine, stopColumn⟩⟩
  | _ => throw (.invalidPoint v)

def readPoints : List Json → Except Error (List SequencePoint)
  | [] => .ok []
  | v :: rest => do
    let p ← readPoint v
    return p :: (← readPoints rest)

/-- A scope and a name that is not empty, divided by the first comma. -/
def readName (v : Json) : Except Error (Text × Text × Text) :=
  match v with
  | .text s =>
    let (scope, name) := Text.cut (.scalar ',') s
    if name.isEmpty then .error (.invalidName v) else .ok (s, scope, name)
  | _ => .error (.invalidName v)

def readRange (name : Text) (v : Json) : Except Error (Int × Int) := do
  match ← numbersOf rangePattern (.invalidRange name v) v with
  | [first, last] => return (first, last)
  | _ => throw (.invalidRange name v)

def readMethod : Json → Except Error DebugMethod
  | .object members => do
    let (whole, scope, name) ← readName ((Json.find? members "name").getD (.text ""))
    let (first, last) ← readRange whole ((Json.find? members "range").getD (.text ""))
    match (Json.find? members "sequence-points").getD (.array []) with
    | .array items => return ⟨scope, name, first, last, ← readPoints items⟩
    | _ => throw (.pointsNotAnArray whole)
  | v => .error (.methodNotAnObject v)

def readMethods : List Json → Except Error (List DebugMethod)
  | [] => .ok []
  | v :: rest => do
    let m ← readMethod v
    return m :: (← readMethods rest)

def readDocuments : List Json → Except Error (List Text)
  | [] => .ok []
  | .text s :: rest => (readDocuments rest).map (s :: ·)
  | _ :: _ => .error .notPaths

def readRoot (v : Json) : Except Error (Option Text) :=
  if !v.isTruthy then .ok none
  else match v with
    | .text s => .ok (some s)
    | v => .error (.invalidRoot v)

/-- Reads debug information. Members that are missing count as empty. -/
def ofJson : Json → Except Error DebugInfo
  | .object members =>
    match (Json.find? members "documents").getD (.array []),
      (Json.find? members "methods").getD (.array []) with
    | .array documents, .array methods => do
      let documents ← readDocuments documents
      let root ← readRoot ((Json.find? members "document-root").getD .null)
      return ⟨documents, root, ← readMethods methods⟩
    | _, _ => .error .notArrays
  | _ => .error .notAnObject

/-! ## Writing -/

def pointText (p : SequencePoint) : String :=
  toString p.address ++ "[" ++ toString p.document ++ "]" ++ toString p.start.line ++ ":"
    ++ toString p.start.column ++ "-" ++ toString p.stop.line ++ ":" ++ toString p.stop.column

def rangeText (m : DebugMethod) : String := toString m.first ++ "-" ++ toString m.last

def methodJson (m : DebugMethod) : Json :=
  .object [("name", .text (m.scope ++ "," ++ m.name)), ("range", .text (rangeText m)),
    ("sequence-points", .array (m.points.map (fun p => .text (pointText p))))]

def rootJson : Option Text → Json
  | some s => .text s
  | none => .null

def toJson (info : DebugInfo) : Json :=
  .object [("documents", .array (info.documents.map .text)), ("document-root", rootJson info.root),
    ("methods", .array (info.methods.map methodJson))]

end DebugInfo

end NeoListing

import NeoListing.Json.Token

/-! # Reading JSON

Reads tokens one by one, keeping the containers that are still open on a stack, of which
there may be `depth`. Each state says what may come next, so each state has its own complaint.
-/

namespace NeoListing.Json

inductive Frame where
  | array (items : List Json)
  | object (members : List (Text × Json)) (name : Text)

inductive State where
  /-- A value must follow. -/
  | value (stack : List Frame)
  /-- A value or the end of the array just opened. -/
  | firstItem (stack : List Frame)
  /-- A name or the end of the object just opened. -/
  | firstName (stack : List Frame)
  /-- A name must follow. -/
  | name (stack : List Frame) (members : List (Text × Json))
  /-- A colon must follow. -/
  | colon (stack : List Frame) (members : List (Text × Json)) (name : Text)
  /-- A value inside the innermost container is complete. -/
  | after (frame : Frame) (stack : List Frame)
  /-- The whole value is complete. -/
  | done (value : Json)

def State.put (v : Json) : List Frame → State
  | [] => .done v
  | .array items :: stack => .after (.array (v :: items)) stack
  | .object members label :: stack => .after (.object ((label, v) :: members) label) stack

/-- Goes on to a container inside those of the stack, if there is room for one more. -/
def State.enter (depth : Nat) (stack : List Frame) (inside : State) : Except Fault State :=
  if stack.length < depth then .ok inside else .error .tooDeep

def State.startValue (depth : Nat) (stack : List Frame) (t : Token) : Except Fault State :=
  match t.lexeme with
  | .openArray => enter depth stack (.firstItem stack)
  | .openObject => enter depth stack (.firstName stack)
  | .text s => .ok (.put (.text s) stack)
  | .scalar v => .ok (.put v stack)
  | .brokenText fault => .error fault
  | .brokenNumber fault => .error fault
  | _ => .error (.malformed .expectingValue t.left)

def State.startName (stack : List Frame) (members : List (Text × Json)) (t : Token) :
    Except Fault State :=
  match t.lexeme with
  | .text s => .ok (.colon stack members s)
  | .brokenText fault => .error fault
  | _ => .error (.malformed .expectingName t.left)

def State.step (depth : Nat) (s : State) (t : Token) : Except Fault State :=
  match s with
  | .value stack => startValue depth stack t
  | .firstItem stack =>
    match t.lexeme with
    | .closeArray => .ok (.put (.array []) stack)
    | _ => startValue depth (.array [] :: stack) t
  | .firstName stack =>
    match t.lexeme with
    | .closeObject => .ok (.put (.object []) stack)
    | _ => startName stack [] t
  | .name stack members => startName stack members t
  | .colon stack members label =>
    match t.lexeme with
    | .colon => .ok (.value (.object members label :: stack))
    | _ => .error (.malformed .expectingColon t.left)
  | .after (.array items) stack =>
    match t.lexeme with
    | .closeArray => .ok (.put (.array items.reverse) stack)
    | .comma => .ok (.value (.array items :: stack))
    | _ => .error (.malformed .expectingComma t.left)
  | .after (.object members _) stack =>
    match t.lexeme with
    | .closeObject => .ok (.put (ofMembers members.reverse) stack)
    | .comma => .ok (.name stack members)
    | _ => .error (.malformed .expectingComma t.left)
  | .done _ => .error (.malformed .extraData t.left)

def State.finish : State → Except Fault Json
  | .value _ => .error (.malformed .expectingValue 0)
  | .firstItem _ => .error (.malformed .expectingValue 0)
  | .firstName _ => .error (.malformed .expectingName 0)
  | .name _ _ => .error (.malformed .expectingName 0)
  | .colon _ _ _ => .error (.malformed .expectingColon 0)
  | .after _ _ => .error (.malformed .expectingComma 0)
  | .done v => .ok v

def readList (depth : Nat) (cs : List Char) : Except Fault Json := do
  match cs with
  | c :: _ => if c.toNat = 0xFEFF then throw (.malformed .byteOrderMark cs.length)
  | [] => pure ()
  let state ← (tokens cs.length cs).foldlM (State.step depth) (.value [])
  state.finish

inductive ReadError where
  | malformed (what : Complaint) (line column position : Nat)
  | tooManyDigits (count : Nat)
  | tooDeep
  deriving DecidableEq, Repr

def Complaint.text : Complaint → String
  | .expectingValue => "Expecting value"
  | .expectingName => "Expecting property name enclosed in double quotes"
  | .expectingColon => "Expecting ':' delimiter"
  | .expectingComma => "Expecting ',' delimiter"
  | .extraData => "Extra data"
  | .unterminatedText => "Unterminated string starting at"
  | .controlCharacter => "Invalid control character at"
  | .badEscape => "Invalid \\escape"
  | .badNumberedEscape => "Invalid \\uXXXX escape"
  | .byteOrderMark => "Unexpected UTF-8 BOM (decode using utf-8-sig)"

def ReadError.message : ReadError → String
  | .malformed what line column position =>
    what.text ++ ": line " ++ toString line ++ " column " ++ toString column
      ++ " (char " ++ toString position ++ ")"
  | .tooManyDigits count => (Text.IntegerError.tooManyDigits count).message
  | .tooDeep => "too many containers inside each other"

/-- Lines and columns count from one; only the line feed ends a line. -/
def Fault.inText (cs : List Char) : Fault → ReadError
  | .tooManyDigits count => .tooManyDigits count
  | .tooDeep => .tooDeep
  | .malformed what left =>
    let position := cs.length - left
    let before := cs.take position
    let line := before.count '\n' + 1
    let column := (before.reverse.takeWhile (· != '\n')).length + 1
    .malformed what line column position

def read (depth : Nat) (text : String) : Except ReadError Json :=
  match readList depth text.toList with
  | .ok v => .ok v
  | .error fault => .error (fault.inText text.toList)

end NeoListing.Json

import NeoListing.Contract.MethodToken
import NeoListing.Text.Integer
import NeoListing.Text.Utf8
import NeoListing.Vm.Instruction
import NeoListing.Vm.ItemType
import NeoListing.Vm.Service

/-! # Comments on instructions

What an operand means, in words. Which rule applies depends on the name of the instruction
only; instructions without a rule have no comment.
-/

namespace NeoListing.Comment

/-- Why there is no comment: the operand lacks a byte that it is about, or a number in it
is too long to be written. -/
inductive Error where
  | missingByte (index : Nat)
  | tooManyDigits
  deriving DecidableEq, Repr

def Error.message : Error → String
  | .missingByte index => "operand byte " ++ toString index ++ " is missing"
  | .tooManyDigits => Text.limitMessage ""

inductive Rule where
  | integer
  | minusOne
  | data
  | jump
  | tryBlock
  | methodToken
  | service
  | staticSlots
  | slots
  | slotIndex
  | itemType
  deriving DecidableEq, Repr

def integerNames : List String :=
  ["PUSHINT8", "PUSHINT16", "PUSHINT32", "PUSHINT64", "PUSHINT128", "PUSHINT256"]

def shortJumps : List String :=
  ["JMP", "JMPIF", "JMPIFNOT", "JMPEQ", "JMPNE", "JMPGT", "JMPGE", "JMPLT", "JMPLE", "CALL",
    "ENDTRY"]

def rules : Table String Rule :=
  integerNames.map (·, .integer) ++ [("PUSHM1", .minusOne)]
    ++ ["PUSHDATA1", "PUSHDATA2", "PUSHDATA4"].map (·, .data)
    ++ ("PUSHA", .jump) :: shortJumps.map (·, .jump) ++ shortJumps.map (· ++ "_L", .jump)
    ++ [("TRY", .tryBlock), ("TRY_L", .tryBlock), ("CALLT", .methodToken), ("SYSCALL", .service),
      ("INITSSLOT", .staticSlots), ("INITSLOT", .slots)]
    ++ ["LDSFLD", "STSFLD", "LDLOC", "STLOC", "LDARG", "STARG"].map (·, .slotIndex)
    ++ ["NEWARRAY_T", "ISTYPE", "CONVERT"].map (·, .itemType)

structure Context where
  tokens : List MethodToken
  services : ServiceTable

/-- Line ends within text are shown as an escape between quotes. -/
def showLineEnd (c : Char) : List Char :=
  if c = '\r' then ['"', '\\', 'r', '"']
  else if c = '\n' then ['"', '\\', 'n', '"']
  else [c]

def dataText (operand : Bytes) : Text :=
  "as text: \"" ++ String.ofList ((Text.Utf8.decodeLossy operand).flatMap showLineEnd) ++ "\""

/-- Data of the length of a script hash is shown as one, too. -/
def ofData (operand : Bytes) : Text :=
  match ScriptHash.ofBytes operand with
  | .ok hash => "as script hash: " ++ hash.text ++ ", " ++ dataText operand
  | .error _ => dataText operand

def written {α : Type} : Option α → Except Error α
  | some v => .ok v
  | none => .error .tooManyDigits

def number (n : Int) : Except Error Text := written ((Text.decimal? n).map Text.ofString)

def ofJump (address : Int) (operand : Bytes) : Except Error Text := do
  let offset := Bytes.intLE operand
  return "pos: " ++ (← number (address + offset)) ++ ", offset: " ++ (← number offset)

/-- One half of a try operand; an offset of zero means that there is no such block. -/
def block (kind : String) (address offset : Int) : Except Error Text :=
  if offset = 0 then .ok ("no " ++ kind ++ " block")
  else (number (address + offset)).map (fun target => kind ++ " " ++ target)

def blocks (address handler cleanup : Int) : Except Error Text := do
  let handler ← block "catch" address handler
  let cleanup ← block "finally" address cleanup
  return handler ++ ", " ++ cleanup

def ofTry (address : Int) (operand : Bytes) : Except Error Text :=
  let half := operand.length / 2
  blocks address (Bytes.intLE (operand.take half)) (Bytes.intLE ((operand.drop half).take half))

def ofToken (tokens : List MethodToken) (operand : Bytes) : Except Error Text :=
  let index := Bytes.natLE operand
  match tokens[index]? with
  | some token => (written token.parts?).map MethodToken.Parts.describe
  | none => (number index).map (fun n => "Unknown token " ++ n)

def ofService (services : ServiceTable) (operand : Bytes) : Except Error Text :=
  let n : Int := Bytes.natLE operand
  match services.get? n with
  | some name => .ok name
  | none => (number n).map (fun n => "Unknown SysCall " ++ n)

def byteAt (operand : Bytes) (index : Nat) : Except Error Nat :=
  match operand[index]? with
  | some b => .ok b.toNat
  | none => .error (.missingByte index)

def ofSlots (operand : Bytes) : Except Error Text := do
  let localCount ← byteAt operand 0
  let argumentCount ← byteAt operand 1
  return toString localCount ++ " local variables, " ++ toString argumentCount ++ " arguments"

def Rule.comment (context : Context) (address : Int) (operand : Bytes) :
    Rule → Except Error Text
  | .integer => number (Bytes.intLE operand)
  | .minusOne => .ok "-1"
  | .data => .ok (ofData operand)
  | .jump => ofJump address operand
  | .tryBlock => ofTry address operand
  | .methodToken => ofToken context.tokens operand
  | .service => ofService context.services operand
  | .staticSlots => (byteAt operand 0).map (fun n => toString n ++ " static variables")
  | .slots => ofSlots operand
  | .slotIndex => (byteAt operand 0).map (fun n => "Slot index " ++ toString n)
  | .itemType => do
    let n ← byteAt operand 0
    written ((ItemType.label n).map Text.ofString)

def make (context : Context) (name : String) (address : Int) (operand : Bytes) :
    Except Error Text :=
  match rules.get? name with
  | some rule => rule.comment context address operand
  | none => .ok ""

def ofInstruction (context : Context) (i : Instruction) : Except Error Text :=
  make context i.opcode.name i.address i.operand

end NeoListing.Comment

import NeoListing.Vm.Opcode

/-! # Scripts and instructions

A script is a row of encoded instructions. Decoding walks it from the front and
either covers it or stops at the first instruction that cannot be read. Control may
run off the end of a script, which acts as a return, so a decoded script that does
not end in one is given a final return placed just past its last byte.
-/

namespace NeoListing

structure Instruction where
  address : Nat
  opcode : Opcode
  operand : Bytes
  deriving DecidableEq, Repr

inductive DecodeError where
  | unknownOpcode (address : Nat) (code : UInt8)
  | lengthPastEnd (address : Nat) (opcode : Opcode)
  | operandPastEnd (address : Nat) (opcode : Opcode) (needed remaining : Nat)
  deriving DecidableEq, Repr

namespace DecodeError

def address : DecodeError → Nat
  | .unknownOpcode address _ => address
  | .lengthPastEnd address _ => address
  | .operandPastEnd address _ _ _ => address

def message : DecodeError → String
  | .unknownOpcode address code =>
    "Unknown opcode 0x" ++ Bytes.upperPair code ++ " at " ++ toString address
  | .lengthPastEnd address opcode =>
    opcode.name ++ " at " ++ toString address ++ ": length prefix exceeds script"
  | .operandPastEnd address opcode needed remaining =>
    opcode.name ++ " at " ++ toString address ++ ": operand of " ++ toString needed
      ++ " bytes exceeds script (" ++ toString remaining ++ " remaining)"

end DecodeError

namespace Instruction

/-- Bytes taken by the opcode, the length before a counted operand, and the operand. -/
def size (i : Instruction) : Nat :=
  1 + i.opcode.layout.lengthWidth + i.operand.length

def encode (i : Instruction) : Bytes :=
  i.opcode.code :: (Bytes.ofNatLE i.opcode.layout.lengthWidth i.operand.length ++ i.operand)

def takeOperand (address : Nat) (opcode : Opcode) (size : Nat) (bytes : Bytes) :
    Except DecodeError Instruction :=
  let operand := bytes.take size
  if operand.length < size then .error (.operandPastEnd address opcode size bytes.length)
  else .ok ⟨address, opcode, operand⟩

def decode (address : Nat) (b : UInt8) (rest : Bytes) : Except DecodeError Instruction :=
  match Opcode.ofByte? b with
  | none => .error (.unknownOpcode address b)
  | some opcode =>
    match opcode.layout with
    | .fixed size => takeOperand address opcode size rest
    | .counted width =>
      let length := rest.take width
      if length.length < width then .error (.lengthPastEnd address opcode)
      else takeOperand address opcode (Bytes.natLE length) (rest.drop width)

def finalReturn (address : Nat) : Instruction := ⟨address, .ret, []⟩

end Instruction

namespace Script

structure Trace where
  instructions : List Instruction
  stopped : Option DecodeError
  deriving DecidableEq, Repr

def decodeFrom (address : Nat) : Bytes → Trace
  | [] => ⟨[], none⟩
  | b :: rest =>
    match Instruction.decode address b rest with
    | .error e => ⟨[], some e⟩
    | .ok i =>
      let tail := decodeFrom (address + i.size) (rest.drop (i.size - 1))
      ⟨i :: tail.instructions, tail.stopped⟩
termination_by bytes => bytes.length
decreasing_by simp only [List.length_drop, List.length_cons]; omega

def endsInReturn (is : List Instruction) : Bool :=
  match is.getLast? with
  | some i => i.opcode.code == Opcode.ret.code
  | none => false

def close (length : Nat) (is : List Instruction) : List Instruction :=
  if endsInReturn is then is else is ++ [Instruction.finalReturn length]

/-- Decodes as far as possible; the final return is added only at the real end. -/
def trace (script : Bytes) : Trace :=
  let t := decodeFrom 0 script
  match t.stopped with
  | none => ⟨close script.length t.instructions, none⟩
  | some e => ⟨t.instructions, some e⟩

def disassemble (script : Bytes) : Except DecodeError (List Instruction) :=
  let t := trace script
  match t.stopped with
  | none => .ok t.instructions
  | some e => .error e

def assemble (is : List Instruction) : Bytes :=
  is.flatMap Instruction.encode

end Script

/-- Characters needed by the last of a row of addresses, one for an empty row. -/
def addressWidth (addresses : List Int) : Nat :=
  match addresses.getLast? with
  | none => 1
  | some a => (toString a).length

end NeoListing

import NeoListing.Bytes

/-! # Opcodes

The opcode table of the virtual machine: the byte of each opcode, its name and how
its operand is laid out.
-/

namespace NeoListing

inductive Layout where
  /-- Exactly `size` bytes. -/
  | fixed (size : Nat)
  /-- A little-endian length of `width` bytes, then that many bytes. -/
  | counted (width : Nat)
  deriving DecidableEq, Repr

structure Opcode where
  code : UInt8
  name : String
  layout : Layout
  deriving DecidableEq, Repr

namespace Layout

def fixedSize : Layout → Nat
  | .fixed size => size
  | .counted _ => 0

def lengthWidth : Layout → Nat
  | .fixed _ => 0
  | .counted width => width

end Layout

namespace Opcode

def bare (code : UInt8) (name : String) : Opcode := ⟨code, name, .fixed 0⟩

def sized (code : UInt8) (name : String) (size : Nat) : Opcode := ⟨code, name, .fixed size⟩

def counted (code : UInt8) (name : String) (width : Nat) : Opcode := ⟨code, name, .counted width⟩

def ret : Opcode := bare 0x40 "RET"

def constants : List Opcode :=
  [sized 0x00 "PUSHINT8" 1, sized 0x01 "PUSHINT16" 2, sized 0x02 "PUSHINT32" 4,
   sized 0x03 "PUSHINT64" 8, sized 0x04 "PUSHINT128" 16, sized 0x05 "PUSHINT256" 32,
   bare 0x08 "PUSHT", bare 0x09 "PUSHF", sized 0x0A "PUSHA" 4, bare 0x0B "PUSHNULL",
   counted 0x0C "PUSHDATA1" 1, counted 0x0D "PUSHDATA2" 2, counted 0x0E "PUSHDATA4" 4,
   bare 0x0F "PUSHM1", bare 0x10 "PUSH0", bare 0x11 "PUSH1", bare 0x12 "PUSH2",
   bare 0x13 "PUSH3", bare 0x14 "PUSH4", bare 0x15 "PUSH5", bare 0x16 "PUSH6",
   bare 0x17 "PUSH7", bare 0x18 "PUSH8", bare 0x19 "PUSH9", bare 0x1A "PUSH10",
   bare 0x1B "PUSH11", bare 0x1C "PUSH12", bare 0x1D "PUSH13", bare 0x1E "PUSH14",
   bare 0x1F "PUSH15", bare 0x20 "PUSH16"]

def flow : List Opcode :=
  [bare 0x21 "NOP", sized 0x22 "JMP" 1, sized 0x23 "JMP_L" 4, sized 0x24 "JMPIF" 1,
   sized 0x25 "JMPIF_L" 4, sized 0x26 "JMPIFNOT" 1, sized 0x27 "JMPIFNOT_L" 4,
   sized 0x28 "JMPEQ" 1, sized 0x29 "JMPEQ_L" 4, sized 0x2A "JMPNE" 1, sized 0x2B "JMPNE_L" 4,
   sized 0x2C "JMPGT" 1, sized 0x2D "JMPGT_L" 4, sized 0x2E "JMPGE" 1, sized 0x2F "JMPGE_L" 4,
   sized 0x30 "JMPLT" 1, sized 0x31 "JMPLT_L" 4, sized 0x32 "JMPLE" 1, sized 0x33 "JMPLE_L" 4,
   sized 0x34 "CALL" 1, sized 0x35 "CALL_L" 4, bare 0x36 "CALLA", sized 0x37 "CALLT" 2,
   bare 0x38 "ABORT", bare 0x39 "ASSERT", bare 0x3A "THROW", sized 0x3B "TRY" 2,
   sized 0x3C "TRY_L" 8, sized 0x3D "ENDTRY" 1, sized 0x3E "ENDTRY_L" 4,
   bare 0x3F "ENDFINALLY", ret, sized 0x41 "SYSCALL" 4]

def stack : List Opcode :=
  [bare 0x43 "DEPTH", bare 0x45 "DROP", bare 0x46 "NIP", bare 0x48 "XDROP", bare 0x49 "CLEAR",
   bare 0x4A "DUP", bare 0x4B "OVER", bare 0x4D "PICK", bare 0x4E "TUCK", bare 0x50 "SWAP",
   bare 0x51 "ROT", bare 0x52 "ROLL", bare 0x53 "REVERSE3", bare 0x54 "REVERSE4",
   bare 0x55 "REVERSEN"]

/-- The eight opcodes of one slot family: seven with their index in the name, and one
that takes the index as its operand. -/
def slotFamily (code : UInt8) (name : String) : List Opcode :=
  [bare code (name ++ "0"), bare (code + 1) (name ++ "1"), bare (code + 2) (name ++ "2"),
   bare (code + 3) (name ++ "3"), bare (code + 4) (name ++ "4"), bare (code + 5) (name ++ "5"),
   bare (code + 6) (name ++ "6"), sized (code + 7) name 1]

def slots : List Opcode :=
  [sized 0x56 "INITSSLOT" 1, sized 0x57 "INITSLOT" 2]
    ++ slotFamily 0x58 "LDSFLD" ++ slotFamily 0x60 "STSFLD"
    ++ slotFamily 0x68 "LDLOC" ++ slotFamily 0x70 "STLOC"
    ++ slotFamily 0x78 "LDARG" ++ slotFamily 0x80 "STARG"

def splice : List Opcode :=
  [bare 0x88 "NEWBUFFER", bare 0x89 "MEMCPY", bare 0x8B "CAT", bare 0x8C "SUBSTR",
   bare 0x8D "LEFT", bare 0x8E "RIGHT"]

def bitwise : List Opcode :=
  [bare 0x90 "INVERT", bare 0x91 "AND", bare 0x92 "OR", bare 0x93 "XOR", bare 0x97 "EQUAL",
   bare 0x98 "NOTEQUAL"]

def arithmetic : List Opcode :=
  [bare 0x99 "SIGN", bare 0x9A "ABS", bare 0x9B "NEGATE", bare 0x9C "INC", bare 0x9D "DEC",
   bare 0x9E "ADD", bare 0x9F "SUB", bare 0xA0 "MUL", bare 0xA1 "DIV", bare 0xA2 "MOD",
   bare 0xA3 "POW", bare 0xA4 "SQRT", bare 0xA5 "MODMUL", bare 0xA6 "MODPOW", bare 0xA8 "SHL",
   bare 0xA9 "SHR", bare 0xAA "NOT", bare 0xAB "BOOLAND", bare 0xAC "BOOLOR", bare 0xB1 "NZ",
   bare 0xB3 "NUMEQUAL", bare 0xB4 "NUMNOTEQUAL", bare 0xB5 "LT", bare 0xB6 "LE", bare 0xB7 "GT",
   bare 0xB8 "GE", bare 0xB9 "MIN", bare 0xBA "MAX", bare 0xBB "WITHIN"]

def compound : List Opcode :=
  [bare 0xBE "PACKMAP", bare 0xBF "PACKSTRUCT", bare 0xC0 "PACK", bare 0xC1 "UNPACK",
   bare 0xC2 "NEWARRAY0", bare 0xC3 "NEWARRAY", sized 0xC4 "NEWARRAY_T" 1,
   bare 0xC5 "NEWSTRUCT0", bare 0xC6 "NEWSTRUCT", bare 0xC8 "NEWMAP", bare 0xCA "SIZE",
   bare 0xCB "HASKEY", bare 0xCC "KEYS", bare 0xCD "VALUES", bare 0xCE "PICKITEM",
   bare 0xCF "APPEND", bare 0xD0 "SETITEM", bare 0xD1 "REVERSEITEMS", bare 0xD2 "REMOVE",
   bare 0xD3 "CLEARITEMS", bare 0xD4 "POPITEM"]

def types : List Opcode :=
  [bare 0xD8 "ISNULL", sized 0xD9 "ISTYPE" 1, sized 0xDB "CONVERT" 1]

def extensions : List Opcode :=
  [bare 0xE0 "ABORTMSG", bare 0xE1 "ASSERTMSG"]

def table : List Opcode :=
  constants ++ flow ++ stack ++ slots ++ splice ++ bitwise ++ arithmetic ++ compound
    ++ types ++ extensions

def ofByte? (b : UInt8) : Option Opcode :=
  table.find? (·.code == b)

def ofInt? (n : Int) : Option Opcode :=
  if 0 ≤ n ∧ n < 256 then ofByte? (UInt8.ofNat n.toNat) else none

theorem code_of_ofByte? {b : UInt8} {op : Opcode} (h : ofByte? b = some op) : op.code = b := by
  simpa using List.find?_some h

theorem mem_of_ofByte? {b : UInt8} {op : Opcode} (h : ofByte? b = some op) : op ∈ table :=
  List.mem_of_find?_eq_some h

end Opcode

end NeoListing

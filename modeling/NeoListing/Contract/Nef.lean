import NeoListing.Contract.MethodToken
import NeoListing.Digest.Sha256
import NeoListing.Text.Utf8

/-! # Contract files

A contract file holds, after a magic number, the compiler, a source address, the method
tokens and the script, and ends in a checksum of everything before. Lengths are written in
one byte, or in two, four or eight bytes behind a marker.
-/

namespace NeoListing

structure Nef where
  compiler : String
  source : String
  tokens : List MethodToken
  script : Bytes
  checksum : Nat
  deriving Repr

namespace Nef

def magic : Nat := 0x3346454E

def compilerSize : Nat := 64

def maxSource : Nat := 256

def maxTokens : Nat := 128

def maxMethodName : Nat := 32

def maxScript : Nat := 512 * 1024

inductive Error where
  | unexpectedEnd (offset needed : Nat)
  | wrongMagic (value : Nat)
  | tooLong (length maximum : Nat)
  | invalidText (e : Text.Utf8.Error)
  | reservedByte
  | hiddenMethod (name : String)
  | invalidFlags (flags : Nat)
  | reservedBytes
  | emptyScript
  | trailing (count : Nat)
  | checksumMismatch
  deriving DecidableEq, Repr

def Error.message : Error → String
  | .unexpectedEnd offset needed =>
    "Unexpected end of NEF data at offset " ++ toString offset ++ " (needed "
      ++ toString needed ++ " bytes)"
  | .wrongMagic value => "Wrong NEF magic 0x" ++ paddedDigits 16 8 value
  | .tooLong length maximum =>
    "Length " ++ toString length ++ " exceeds maximum " ++ toString maximum
  | .invalidText e => "Invalid UTF-8 string in NEF: " ++ e.message
  | .reservedByte => "Reserved byte must be 0"
  | .hiddenMethod name => "Method token name cannot start with '_': " ++ name
  | .invalidFlags flags => "Invalid call flags 0x" ++ paddedDigits 16 2 flags
  | .reservedBytes => "Reserved bytes must be 0"
  | .emptyScript => "Script can't be empty"
  | .trailing count => toString count ++ " trailing bytes after NEF"
  | .checksumMismatch => "NEF checksum mismatch"

def checksumOf (body : Bytes) : Nat :=
  Bytes.natLE ((sha256 (sha256 body)).take 4)

/-! ## Reading -/

structure Cursor where
  offset : Nat
  rest : Bytes

abbrev Reader := StateT Cursor (Except Error)

def readBytes (count : Nat) : Reader Bytes := fun c =>
  let chunk := c.rest.take count
  if chunk.length < count then .error (.unexpectedEnd c.offset count)
  else .ok (chunk, ⟨c.offset + count, c.rest.drop count⟩)

def readNat (width : Nat) : Reader Nat := do
  return Bytes.natLE (← readBytes width)

/-- The width of a length behind a marker; other bytes are lengths themselves. -/
def markedWidth? (marker : Nat) : Option Nat :=
  if marker = 0xFD then some 2
  else if marker = 0xFE then some 4
  else if marker = 0xFF then some 8
  else none

def readLength (maximum : Nat) : Reader Nat := do
  let marker ← readNat 1
  let length ← match markedWidth? marker with
    | some width => readNat width
    | none => pure marker
  if maximum < length then throw (.tooLong length maximum)
  return length

def readCounted (maximum : Nat) : Reader Bytes := do
  readBytes (← readLength maximum)

def readText (maximum : Nat) : Reader String := do
  match Text.Utf8.decode (← readCounted maximum) with
  | .ok s => return s
  | .error e => throw (.invalidText e)

def readHash : Reader ScriptHash := fun c =>
  if h : (c.rest.take 20).length = 20 then
    .ok (⟨c.rest.take 20, h⟩, ⟨c.offset + 20, c.rest.drop 20⟩)
  else .error (.unexpectedEnd c.offset 20)

def readToken : Reader MethodToken := do
  let hash ← readHash
  let method ← readText maxMethodName
  if method.toList.head? = some '_' then throw (.hiddenMethod method)
  let parameters ← readNat 2
  let returns ← readNat 1
  let flags ← readNat 1
  if 15 < flags then throw (.invalidFlags flags)
  return ⟨hash, .text method, parameters, returns != 0, flags⟩

def readTokens : Nat → Reader (List MethodToken)
  | 0 => return []
  | count + 1 => do
    let token ← readToken
    return token :: (← readTokens count)

def dropPadding (bytes : Bytes) : Bytes :=
  (bytes.reverse.dropWhile (· == 0)).reverse

/-- Reads a file up to its checksum, which is not yet compared. -/
def readAll : Reader Nef := do
  let found ← readNat 4
  if found ≠ magic then throw (.wrongMagic found)
  let compiler ← readBytes compilerSize
  let source ← readText maxSource
  let reserved ← readNat 1
  if reserved ≠ 0 then throw .reservedByte
  let count ← readLength maxTokens
  let tokens ← readTokens count
  let reserved ← readNat 2
  if reserved ≠ 0 then throw .reservedBytes
  let script ← readCounted maxScript
  if script.isEmpty then throw .emptyScript
  let checksum ← readNat 4
  return ⟨Text.Utf8.text (dropPadding compiler), source, tokens, script, checksum⟩

def parse (data : Bytes) : Except Error Nef := do
  let (nef, c) ← readAll ⟨0, data⟩
  if !c.rest.isEmpty then throw (.trailing c.rest.length)
  if nef.checksum ≠ checksumOf (data.take (c.offset - 4)) then throw .checksumMismatch
  return nef

/-! ## Writing -/

def lengthBytes (n : Nat) : Bytes :=
  if n < 0xFD then Bytes.ofNatLE 1 n
  else if n < Nat.pow 2 16 then 0xFD :: Bytes.ofNatLE 2 n
  else if n < Nat.pow 2 32 then 0xFE :: Bytes.ofNatLE 4 n
  else 0xFF :: Bytes.ofNatLE 8 n

def countedBytes (bytes : Bytes) : Bytes := lengthBytes bytes.length ++ bytes

def textBytes (s : String) : Bytes := countedBytes (Text.Utf8.encode s)

def tokenBytes (t : MethodToken) : Bytes :=
  t.hash.bytes ++ textBytes t.method.plain.shown ++ Bytes.ofNatLE 2 t.parameters.toNat
    ++ [if t.returns then 1 else 0] ++ Bytes.ofNatLE 1 t.flags.toNat

def compilerBytes (s : String) : Bytes :=
  let bytes := Text.Utf8.encode s
  bytes ++ List.replicate (compilerSize - bytes.length) 0

def body (n : Nef) : Bytes :=
  Bytes.ofNatLE 4 magic ++ compilerBytes n.compiler ++ textBytes n.source ++ [0]
    ++ lengthBytes n.tokens.length ++ n.tokens.flatMap tokenBytes ++ [0, 0] ++ countedBytes n.script

def serialize (n : Nef) : Bytes :=
  n.body ++ Bytes.ofNatLE 4 (checksumOf n.body)

end Nef

end NeoListing

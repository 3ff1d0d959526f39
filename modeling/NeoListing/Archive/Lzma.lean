import Std.Data.HashMap
import NeoListing.Archive.Packed

/-! # Range-coded data

Every bit of such data is coded by how likely it is, and that is learnt from the bits before
it that were about the same subject. The bits make up symbols: a byte, or a repetition of
bytes that stand some distance back. A symbol counts only when it is complete.
-/

namespace NeoListing.Lzma

inductive Fault where
  | properties
  | data
  deriving DecidableEq, Repr

def Fault.text : Fault → String
  | .properties => "Invalid or unsupported options"
  | .data => "Corrupt input data"

/-! ## Bits -/

inductive LengthKind where
  | new
  | used
  deriving DecidableEq, Hashable, Repr

inductive Subject where
  | isRepetition (state place : Nat)
  | isUsedDistance (state : Nat)
  | isNotLatest (state : Nat)
  | isLong (state place : Nat)
  | isNotSecond (state : Nat)
  | isNotThird (state : Nat)
  | literal (context node : Nat)
  | isNotShort (kind : LengthKind)
  | isNotMiddle (kind : LengthKind)
  | short (kind : LengthKind) (place node : Nat)
  | middle (kind : LengthKind) (place node : Nat)
  | long (kind : LengthKind) (node : Nat)
  | slot (lengthClass node : Nat)
  | distance (slot node : Nat)
  | lowDistance (node : Nat)
  deriving DecidableEq, Hashable, Repr

/-- The present range, where in it the data points to, the bytes to come, and how likely a zero
is for each subject, in parts of 2048. -/
structure Coder where
  range : UInt32
  code : UInt32
  input : Bytes
  zeros : Std.HashMap Subject UInt32

abbrev Reader := StateT Coder (Except Unpacked.Stop)

def refill : Reader Unit
  | ⟨range, code, input, zeros⟩ =>
    if range < 0x1000000 then
      match input with
      | [] => .error .dataEnds
      | b :: rest => .ok ((), ⟨range <<< 8, (code <<< 8) ||| b.toUInt32, rest, zeros⟩)
    else .ok ((), ⟨range, code, input, zeros⟩)

def split (s : Subject) : Reader Bool
  | ⟨range, code, input, zeros⟩ =>
    let zero := zeros.getD s 1024
    let bound := (range >>> 11) * zero
    if code < bound then
      .ok (false, ⟨bound, code, input, zeros.insert s (zero + ((2048 - zero) >>> 5))⟩)
    else
      .ok (true, ⟨range - bound, code - bound, input, zeros.insert s (zero - (zero >>> 5))⟩)

def bit (s : Subject) : Reader Bool := do
  refill
  split s

def halve : Reader Bool
  | ⟨range, code, input, zeros⟩ =>
    let range := range >>> 1
    let code := code - range
    if code >>> 31 = 1 then .ok (false, ⟨range, code + range, input, zeros⟩)
    else .ok (true, ⟨range, code, input, zeros⟩)

/-! ## Numbers -/

def grow (about : Nat → Subject) : Nat → Nat → Reader Nat
  | 0, node => return node
  | count + 1, node => do
    let b ← bit (about node)
    grow about count (2 * node + b.toNat)

def number (about : Nat → Subject) (count : Nat) : Reader Nat := do
  return (← grow about count 1) - Nat.pow 2 count

def reversed (about : Nat → Subject) : Nat → Nat → Reader Nat
  | 0, _ => return 0
  | count + 1, node => do
    let b ← bit (about node)
    return b.toNat + 2 * (← reversed about count (2 * node + b.toNat))

def direct : Nat → Nat → Reader Nat
  | 0, n => return n
  | count + 1, n => do
    refill
    let b ← halve
    direct count (2 * n + b.toNat)

def readLength (kind : LengthKind) (place : Nat) : Reader Nat := do
  if !(← bit (.isNotShort kind)) then return 2 + (← number (.short kind place) 3)
  if !(← bit (.isNotMiddle kind)) then return 10 + (← number (.middle kind place) 3)
  return 18 + (← number (.long kind) 8)

def readDistance (length : Nat) : Reader Nat := do
  let slot ← number (.slot (min (length - 2) 3)) 6
  if slot < 4 then return slot
  let first := 2 + slot % 2
  let count := slot / 2 - 1
  if slot < 14 then return first * Nat.pow 2 count + (← reversed (.distance slot) count 1)
  let high ← direct (count - 4) first
  return 16 * high + (← reversed .lowDistance 4 1)

/-- A byte of which another is known that it probably equals. Up to the first bit in which
they differ, bits are also about the other. -/
def growBeside (context beside : Nat) : Nat → Nat → Reader Nat
  | 0, node => return node
  | count + 1, node => do
    let guess := beside.testBit count
    let b ← bit (.literal context (256 * (1 + guess.toNat) + node))
    if b == guess then growBeside context beside count (2 * node + b.toNat)
    else grow (.literal context) count (2 * node + b.toNat)

/-! ## Symbols -/

structure Properties where
  /-- How many bits of the byte before a literal its bits are about. -/
  contextBits : Nat
  /-- How many bits of the place of a literal its bits are about. -/
  literalBits : Nat
  /-- How many bits of the place of other symbols their bits are about. -/
  placeBits : Nat
  /-- How far back a repetition may reach. -/
  window : Nat

structure History where
  out : Array UInt8
  state : Nat
  latest : Nat
  second : Nat
  third : Nat
  fourth : Nat

/-- A distance of zero means the byte before. -/
inductive Symbol where
  | literal (b : UInt8)
  | new (distance length : Nat)
  | latestByte
  | latest (length : Nat)
  | second (length : Nat)
  | third (length : Nat)
  | fourth (length : Nat)
  | finish

def isAfterRepetition (state : Nat) : Bool := 7 ≤ state

def stateAfterLiteral (state : Nat) : Nat :=
  if state < 4 then 0 else if state < 10 then state - 3 else state - 6

def stateAfter (first further state : Nat) : Nat :=
  if isAfterRepetition state then further else first

namespace History

def start : History := ⟨#[], 0, 0, 0, 0, 0⟩

def byteAt (h : History) (distance : Nat) : UInt8 := h.out.getD (h.out.size - 1 - distance) 0

/-- Repeats bytes one by one, so that a repetition may reach into itself. -/
def copy (distance : Nat) : Nat → Array UInt8 → Array UInt8
  | 0, out => out
  | length + 1, out => copy distance length (out.push (out.getD (out.size - 1 - distance) 0))

def add : History → Symbol → History
  | ⟨out, state, d₁, d₂, d₃, d₄⟩, symbol =>
    match symbol with
    | .literal b => ⟨out.push b, stateAfterLiteral state, d₁, d₂, d₃, d₄⟩
    | .new d length => ⟨copy d length out, stateAfter 7 10 state, d, d₁, d₂, d₃⟩
    | .latestByte => ⟨copy d₁ 1 out, stateAfter 9 11 state, d₁, d₂, d₃, d₄⟩
    | .latest length => ⟨copy d₁ length out, stateAfter 8 11 state, d₁, d₂, d₃, d₄⟩
    | .second length => ⟨copy d₂ length out, stateAfter 8 11 state, d₂, d₁, d₃, d₄⟩
    | .third length => ⟨copy d₃ length out, stateAfter 8 11 state, d₃, d₁, d₂, d₄⟩
    | .fourth length => ⟨copy d₄ length out, stateAfter 8 11 state, d₄, d₁, d₂, d₃⟩
    | .finish => ⟨out, state, d₁, d₂, d₃, d₄⟩

end History

def readLiteral (p : Properties) (h : History) : Reader Symbol := do
  let before := (h.byteAt 0).toNat / Nat.pow 2 (8 - p.contextBits)
  let context := h.out.size % Nat.pow 2 p.literalBits * Nat.pow 2 p.contextBits + before
  let node ←
    if isAfterRepetition h.state then growBeside context (h.byteAt h.latest).toNat 8 1
    else grow (.literal context) 8 1
  return .literal (UInt8.ofNat node)

def lastDistance : Nat := 0xFFFFFFFF

/-- The greatest distance marks the end, where nothing may be left of the code. -/
def readNew (p : Properties) (h : History) (place : Nat) : Reader Symbol := do
  let length ← readLength .new place
  let distance ← readDistance length
  if distance = lastDistance then
    refill
    if (← get).code = 0 then return .finish else throw .invalid
  if min h.out.size p.window ≤ distance then throw .invalid
  return .new distance length

def readUsed (h : History) (place : Nat) : Reader Symbol := do
  if h.out.isEmpty then throw .invalid
  if !(← bit (.isNotLatest h.state)) then
    if ← bit (.isLong h.state place) then return .latest (← readLength .used place)
    else return .latestByte
  if !(← bit (.isNotSecond h.state)) then return .second (← readLength .used place)
  if !(← bit (.isNotThird h.state)) then return .third (← readLength .used place)
  return .fourth (← readLength .used place)

def readSymbol (p : Properties) (h : History) : Reader Symbol := do
  let place := h.out.size % Nat.pow 2 p.placeBits
  if !(← bit (.isRepetition h.state place)) then readLiteral p h
  else if ← bit (.isUsedDistance h.state) then readUsed h place
  else readNew p h place

/-! ## The whole -/

def readSymbols (p : Properties) : Nat → History → Coder → Except Fault Unpacked
  | 0, h, _ => .ok ⟨h.out.toList, false⟩
  | fuel + 1, h, c =>
    match (readSymbol p h).run c with
    | .error .dataEnds => .ok ⟨h.out.toList, false⟩
    | .error .invalid => .error .data
    | .ok (.finish, _) => .ok ⟨h.out.toList, true⟩
    | .ok (symbol, c) => readSymbols p fuel (h.add symbol) c

/-- The first byte must be zero, and four more give the first code. No bit is likelier than
2017 to 31, so a byte holds fewer than 400 bits. -/
def decode (p : Properties) : Bytes → Except Fault Unpacked
  | [] => .ok ⟨[], false⟩
  | b :: rest =>
    if b ≠ 0 then .error .data
    else if rest.length < 4 then .ok ⟨[], false⟩
    else
      let code : UInt32 := (rest.take 4).foldl (fun n b => (n <<< 8) ||| b.toUInt32) 0
      readSymbols p (400 * (rest.length + 1)) .start ⟨0xFFFFFFFF, code, rest.drop 4, ∅⟩

/-- Properties take five bytes: the numbers of bits in one, and the size of the window, which
is at least 4096 and a multiple of 16. -/
def Properties.read : Bytes → Option Properties
  | [b, w₀, w₁, w₂, w₃] =>
    let n := b.toNat
    let p : Properties := ⟨n % 9, n / 9 % 5, n / 45,
      max 4096 ((Bytes.natLE [w₀, w₁, w₂, w₃] + 15) / 16 * 16)⟩
    if n < 225 ∧ p.contextBits + p.literalBits ≤ 4 then some p else none
  | _ => none

end Lzma

/-- The bytes that range-coded data stands for. A version of two bytes, the length of the
properties and the properties stand before the data. -/
def unlzma (packed : Bytes) : Except Lzma.Fault Unpacked :=
  let length := Bytes.natLE ((packed.drop 2).take 2)
  if packed.length ≤ 4 ∨ packed.length ≤ 4 + length then .ok ⟨[], false⟩
  else match Lzma.Properties.read ((packed.drop 4).take length) with
    | none => .error .properties
    | some p => Lzma.decode p (packed.drop (4 + length))

end NeoListing

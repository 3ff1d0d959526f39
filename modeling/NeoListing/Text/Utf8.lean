import NeoListing.Bytes

/-! # UTF-8

Strict and lossy decoding. Both walk the same steps: a step reads one scalar value,
or finds a fault covering the longest start of a sequence that could have been
continued. Lossy decoding puts one replacement character for each fault.
-/

namespace NeoListing.Text.Utf8

inductive Reason where
  | invalidStart
  | invalidContinuation
  | unexpectedEnd
  deriving DecidableEq, Repr

/-- One step: a character, or a fault, with the number of bytes after the first
that it covers. -/
inductive Step where
  | scalar (c : Char) (more : Nat)
  | fault (reason : Reason) (more : Nat)

/-- What a lead byte announces: how many bytes follow, the range of the first of
them and the bits that the lead byte contributes. -/
structure Lead where
  count : Nat
  low : Nat
  high : Nat
  bits : Nat

def lead? (b : Nat) : Option Lead :=
  if b < 0x80 then some ⟨0, 0, 0, b⟩
  else if b < 0xC2 then none
  else if b < 0xE0 then some ⟨1, 0x80, 0xBF, b - 0xC0⟩
  else if b = 0xE0 then some ⟨2, 0xA0, 0xBF, 0⟩
  else if b = 0xED then some ⟨2, 0x80, 0x9F, 0xD⟩
  else if b < 0xF0 then some ⟨2, 0x80, 0xBF, b - 0xE0⟩
  else if b = 0xF0 then some ⟨3, 0x90, 0xBF, 0⟩
  else if b < 0xF4 then some ⟨3, 0x80, 0xBF, b - 0xF0⟩
  else if b = 0xF4 then some ⟨3, 0x80, 0x8F, 4⟩
  else none

/-- Reads `count` continuation bytes after `read` of them, the next within
`low` to `high` and all others within `0x80` to `0xBF`. -/
def continuation (low high read value : Nat) : Nat → Bytes → Step
  | 0, _ => .scalar (Char.ofNat value) read
  | _ + 1, [] => .fault .unexpectedEnd read
  | count + 1, b :: rest =>
    if low ≤ b.toNat ∧ b.toNat ≤ high then
      continuation 0x80 0xBF (read + 1) (64 * value + (b.toNat - 0x80)) count rest
    else .fault .invalidContinuation read

def step (b : UInt8) (rest : Bytes) : Step :=
  match lead? b.toNat with
  | none => .fault .invalidStart 0
  | some l => continuation l.low l.high 0 l.bits l.count rest

def replacement : Char := Char.ofNat 0xFFFD

def decodeLossy : Bytes → List Char
  | [] => []
  | b :: rest =>
    match step b rest with
    | .scalar c more => c :: decodeLossy (rest.drop more)
    | .fault _ more => replacement :: decodeLossy (rest.drop more)
termination_by bs => bs.length
decreasing_by all_goals (simp only [List.length_drop, List.length_cons]; omega)

/-- A fault of strict decoding. Its bytes stand at `first` to `last`; `byte` is the first. -/
structure Error where
  reason : Reason
  first : Nat
  last : Nat
  byte : UInt8
  deriving DecidableEq, Repr

def Reason.text : Reason → String
  | .invalidStart => "invalid start byte"
  | .invalidContinuation => "invalid continuation byte"
  | .unexpectedEnd => "unexpected end of data"

def Error.message (e : Error) : String :=
  let place :=
    if e.first = e.last then
      "byte 0x" ++ Bytes.hex [e.byte] ++ " in position " ++ toString e.first
    else
      "bytes in position " ++ toString e.first ++ "-" ++ toString e.last
  "'utf-8' codec can't decode " ++ place ++ ": " ++ e.reason.text

def decodeFrom (position : Nat) : Bytes → Except Error (List Char)
  | [] => .ok []
  | b :: rest =>
    match step b rest with
    | .scalar c more => (decodeFrom (position + 1 + more) (rest.drop more)).map (c :: ·)
    | .fault reason more => .error ⟨reason, position, position + more, b⟩
termination_by bs => bs.length
decreasing_by all_goals (simp only [List.length_drop, List.length_cons]; omega)

def decode (bs : Bytes) : Except Error String :=
  (decodeFrom 0 bs).map String.ofList

def text (bs : Bytes) : String :=
  String.ofList (decodeLossy bs)

def encode (s : String) : Bytes :=
  s.toList.flatMap String.utf8EncodeChar

end NeoListing.Text.Utf8

import NeoListing.Bytes
import NeoListing.Text.Basic

/-! # Reading hexadecimal text

Pairs of digits in either case. ASCII blanks may stand before, between and after
the pairs, never inside one.
-/

namespace NeoListing.Hex

/-- The text is not a sequence of pairs; `position` is the first offending character. -/
structure Error where
  position : Nat
  deriving DecidableEq, Repr

def Error.message (e : Error) : String :=
  s!"non-hexadecimal number found in fromhex() arg at position {e.position}"

def digit? (c : Char) : Option Nat :=
  if '0' ≤ c ∧ c ≤ '9' then some (c.toNat - '0'.toNat)
  else if 'a' ≤ c ∧ c ≤ 'f' then some (c.toNat - 'a'.toNat + 10)
  else if 'A' ≤ c ∧ c ≤ 'F' then some (c.toNat - 'A'.toNat + 10)
  else none

def isBlank (c : Char) : Bool :=
  c == ' ' || ('\t' ≤ c && c ≤ '\r')

def pairs (position : Nat) : List Char → Except Error Bytes
  | [] => .ok []
  | c :: rest =>
    if isBlank c then pairs (position + 1) rest
    else match digit? c, rest with
      | none, _ => .error ⟨position⟩
      | some _, [] => .error ⟨position + 1⟩
      | some high, d :: rest =>
        match digit? d with
        | none => .error ⟨position + 1⟩
        | some low =>
          (pairs (position + 2) rest).map (UInt8.ofNat (16 * high + low) :: ·)

/-- Reads a whole text. What is outside ASCII is reported before any other fault. -/
def decode (text : Text) : Except Error Bytes :=
  match text.findIdx? (fun p => 128 ≤ p.toNat) with
  | some position => .error ⟨position⟩
  | none => pairs 0 text.chars

end NeoListing.Hex

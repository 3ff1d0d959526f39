import NeoListing.Bytes
import NeoListing.Text.Basic

/-! # Base64

Reading is strict: no blanks, and the padding must be there. Bits that the last character
has to spare are ignored. Padding behind complete groups is passed over.
-/

namespace NeoListing.Base64

inductive Error where
  | notAscii
  | leadingPadding
  | notInAlphabet
  | discontinuousPadding
  | excessData
  | incompletePadding
  | oneOver (count : Nat)
  deriving DecidableEq, Repr

def Error.message : Error → String
  | .notAscii => "string argument should contain only ASCII characters"
  | .leadingPadding => "Leading padding not allowed"
  | .notInAlphabet => "Only base64 data is allowed"
  | .discontinuousPadding => "Discontinuous padding not allowed"
  | .excessData => "Excess data after padding"
  | .incompletePadding => "Incorrect padding"
  | .oneOver count =>
    "Invalid base64-encoded string: number of data characters (" ++ toString count
      ++ ") cannot be 1 more than a multiple of 4"

def value? (c : Char) : Option Nat :=
  if 'A' ≤ c ∧ c ≤ 'Z' then some (c.toNat - 'A'.toNat)
  else if 'a' ≤ c ∧ c ≤ 'z' then some (c.toNat - 'a'.toNat + 26)
  else if '0' ≤ c ∧ c ≤ '9' then some (c.toNat - '0'.toNat + 52)
  else if c = '+' then some 62
  else if c = '/' then some 63
  else none

def digit (n : Nat) : Char :=
  if n < 26 then Char.ofNat ('A'.toNat + n)
  else if n < 52 then Char.ofNat ('a'.toNat + (n - 26))
  else if n < 62 then Char.ofNat ('0'.toNat + (n - 52))
  else if n = 62 then '+'
  else '/'

/-- Regroups values of six bits into bytes. A last group of `n` values makes `n - 1` bytes. -/
def bytesOf : List Nat → Bytes
  | a :: b :: c :: d :: rest =>
    UInt8.ofNat (a * 4 + b / 16) :: UInt8.ofNat (b % 16 * 16 + c / 4)
      :: UInt8.ofNat (c % 4 * 64 + d) :: bytesOf rest
  | [a, b, c] => [UInt8.ofNat (a * 4 + b / 16), UInt8.ofNat (b % 16 * 16 + c / 4)]
  | [a, b] => [UInt8.ofNat (a * 4 + b / 16)]
  | _ => []

/-- Collects the values of the data characters, of which `count` were read and `pads`
padding characters since the last group began. -/
def collect (count pads : Nat) (padded : Bool) : List Char → Except Error (List Nat)
  | [] =>
    match count % 4 with
    | 0 => .ok []
    | 1 => .error (.oneOver count)
    | _ => .error .incompletePadding
  | c :: rest =>
    if c = '=' then
      if 2 ≤ count % 4 then
        if 4 ≤ count % 4 + (pads + 1) then
          if rest.isEmpty then .ok [] else .error .excessData
        else collect count (pads + 1) true rest
      else collect count pads true rest
    else match value? c with
      | none => .error .notInAlphabet
      | some v =>
        if padded then .error .discontinuousPadding
        else (collect (count + 1) 0 false rest).map (v :: ·)

def decode (text : Text) : Except Error Bytes :=
  if text.any (fun p => 128 ≤ p.toNat) then .error .notAscii
  else if text.head? = some (.scalar '=') then .error .leadingPadding
  else (collect 0 0 false text.chars).map bytesOf

def encodeList : Bytes → List Char
  | a :: b :: c :: rest =>
    digit (a.toNat / 4) :: digit (a.toNat % 4 * 16 + b.toNat / 16)
      :: digit (b.toNat % 16 * 4 + c.toNat / 64) :: digit (c.toNat % 64) :: encodeList rest
  | [a, b] =>
    [digit (a.toNat / 4), digit (a.toNat % 4 * 16 + b.toNat / 16), digit (b.toNat % 16 * 4), '=']
  | [a] => [digit (a.toNat / 4), digit (a.toNat % 4 * 16), '=', '=']
  | [] => []

def encode (bytes : Bytes) : String := String.ofList (encodeList bytes)

end NeoListing.Base64

/-! # Byte strings

Byte strings are plain lists. This module reads and writes them as little-endian
numbers and writes them as hexadecimal text.
-/

namespace NeoListing

abbrev Bytes := List UInt8

namespace Bytes

def natLE : Bytes → Nat
  | [] => 0
  | b :: bs => b.toNat + 256 * natLE bs

def ofNatLE : Nat → Nat → Bytes
  | 0, _ => []
  | width + 1, n => UInt8.ofNat (n % 256) :: ofNatLE width (n / 256)

/-- The two's complement reading of `natLE`; no bytes at all read as zero. -/
def intLE (bs : Bytes) : Int :=
  if 2 * natLE bs < Nat.pow 256 bs.length then natLE bs
  else natLE bs - (Nat.pow 256 bs.length : Nat)

def ofIntLE (width : Nat) (v : Int) : Bytes :=
  ofNatLE width (v % (Nat.pow 256 width : Nat)).toNat

@[simp] theorem natLE_nil : natLE [] = 0 := rfl

@[simp] theorem natLE_cons (b : UInt8) (bs : Bytes) :
    natLE (b :: bs) = b.toNat + 256 * natLE bs := rfl

@[simp] theorem length_ofNatLE (width n : Nat) : (ofNatLE width n).length = width := by
  induction width generalizing n with
  | zero => rfl
  | succ width ih => simp [ofNatLE, ih]

theorem pow_succ_width (width : Nat) : Nat.pow 256 (width + 1) = Nat.pow 256 width * 256 := rfl

theorem natLE_lt (bs : Bytes) : natLE bs < Nat.pow 256 bs.length := by
  induction bs with
  | nil => simp
  | cons b bs ih =>
    have hb := b.toNat_lt
    simp only [natLE_cons, List.length_cons, pow_succ_width]
    omega

theorem natLE_ofNatLE {width n : Nat} (h : n < Nat.pow 256 width) :
    natLE (ofNatLE width n) = n := by
  induction width generalizing n with
  | zero => simp at h; simp [ofNatLE, h]
  | succ width ih =>
    have hd : n / 256 < Nat.pow 256 width := by
      rw [pow_succ_width] at h
      omega
    have hm : (UInt8.ofNat (n % 256)).toNat = n % 256 := by
      simp
    simp only [ofNatLE, natLE_cons, ih hd, hm]
    omega

theorem ofNatLE_natLE (bs : Bytes) : ofNatLE bs.length (natLE bs) = bs := by
  induction bs with
  | nil => rfl
  | cons b bs ih =>
    have hb := b.toNat_lt
    have hm : (b.toNat + 256 * natLE bs) % 256 = b.toNat := by omega
    have hd : (b.toNat + 256 * natLE bs) / 256 = natLE bs := by omega
    simp only [List.length_cons, natLE_cons, ofNatLE, hm, hd, ih, UInt8.ofNat_toNat]

def hexPair (b : UInt8) : List Char :=
  [Nat.digitChar (b.toNat / 16), Nat.digitChar (b.toNat % 16)]

def hex (bs : Bytes) : String :=
  String.ofList (bs.flatMap hexPair)

def upperPair (b : UInt8) : String :=
  String.ofList ((hexPair b).map Char.toUpper)

def dashed (bs : Bytes) : String :=
  "-".intercalate (bs.map upperPair)

end Bytes

/-- The digits of a number in a base of at most sixteen, letters in upper case,
filled with zeros on the left up to `width`. -/
def paddedDigits (base width n : Nat) : String :=
  let digits := (Nat.toDigits base n).map Char.toUpper
  String.ofList (List.replicate (width - digits.length) '0' ++ digits)

end NeoListing

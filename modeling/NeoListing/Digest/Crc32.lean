import NeoListing.Bytes

/-! # CRC-32 -/

namespace NeoListing.Crc32

def shift (r : UInt32) : UInt32 :=
  if r &&& 1 = 1 then (r >>> 1) ^^^ 0xEDB88320 else r >>> 1

def step (r : UInt32) (b : UInt8) : UInt32 :=
  let r := r ^^^ b.toUInt32
  shift (shift (shift (shift (shift (shift (shift (shift r)))))))

def shiftForward (r : UInt32) : UInt32 :=
  if r >>> 31 = 1 then (r <<< 1) ^^^ 0x04C11DB7 else r <<< 1

def stepForward (r : UInt32) (b : UInt8) : UInt32 :=
  let r := r ^^^ (b.toUInt32 <<< 24)
  shiftForward (shiftForward (shiftForward (shiftForward
    (shiftForward (shiftForward (shiftForward (shiftForward r)))))))

end Crc32

def crc32 (bs : Bytes) : Nat :=
  (bs.foldl Crc32.step 0xFFFFFFFF ^^^ 0xFFFFFFFF).toNat

/-- The checksum that takes the most significant bit of a byte first. -/
def crc32Forward (bs : Bytes) : UInt32 :=
  bs.foldl Crc32.stepForward 0xFFFFFFFF ^^^ 0xFFFFFFFF

end NeoListing

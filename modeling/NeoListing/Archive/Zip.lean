import NeoListing.Archive.Bzip2
import NeoListing.Archive.Inflate
import NeoListing.Archive.Lzma
import NeoListing.Digest.Crc32
import NeoListing.Text.Quoted
import NeoListing.Text.Utf8

/-! # Zip archives

Reads one entry of an archive by name. The archive is found from its end record, so data
may stand before it. Of entries with the same name the last counts.
-/

namespace NeoListing.Zip

inductive Error where
  | notAnArchive
  | spansDisks
  | badDirectoryOffset
  | truncatedDirectory
  | badDirectoryMagic
  | entryName (e : Text.Utf8.Error)
  | corruptExtra (tag length : Nat)
  | corruptWideExtra (field : String)
  | noSuchEntry (name : Text)
  | truncatedHeader
  | badHeaderMagic
  | namesDiffer (inDirectory : String) (inHeader : Bytes)
  | overlapped (name : String)
  | badChecksum (name : String)
  | unsupportedVersion (version : Nat)
  | compressedPatch
  | strongEncryption
  | encrypted (name : Text)
  | unsupportedMethod
  | inflate (fault : Inflate.Fault)
  | bzip2
  | lzma (fault : Lzma.Fault)
  | entryOutsideFile
  | entryOutOfRange
  | dataEnds
  deriving DecidableEq, Repr

def Error.message : Error → String
  | .notAnArchive => "File is not a zip file"
  | .spansDisks => "zipfiles that span multiple disks are not supported"
  | .badDirectoryOffset => "Bad offset for central directory"
  | .truncatedDirectory => "Truncated central directory"
  | .badDirectoryMagic => "Bad magic number for central directory"
  | .entryName e => e.message
  | .corruptExtra tag length =>
    "Corrupt extra field " ++ String.ofList (Text.hexDigits 4 tag)
      ++ " (size=" ++ toString length ++ ")"
  | .corruptWideExtra field => "Corrupt zip64 extra field. " ++ field ++ " not found."
  | .noSuchEntry name =>
    Text.quoted ("There is no item named " ++ Text.quoted name ++ " in the archive")
  | .truncatedHeader => "Truncated file header"
  | .badHeaderMagic => "Bad magic number for file header"
  | .namesDiffer inDirectory inHeader =>
    "File name in directory " ++ Text.quoted inDirectory ++ " and header "
      ++ Text.quotedBytes inHeader ++ " differ."
  | .overlapped name => "Overlapped entries: " ++ Text.quoted name ++ " (possible zip bomb)"
  | .badChecksum name => "Bad CRC-32 for file " ++ Text.quoted name
  | .unsupportedVersion version =>
    "zip file version " ++ toString (version / 10) ++ "." ++ toString (version % 10)
  | .compressedPatch => "compressed patched data (flag bit 5)"
  | .strongEncryption => "strong encryption (flag bit 6)"
  | .encrypted name =>
    "File " ++ Text.quoted name ++ " is encrypted, password required for extraction"
  | .unsupportedMethod => "That compression method is not supported"
  | .inflate fault => "Error -3 while decompressing data: " ++ fault.text
  | .bzip2 => "Invalid data stream"
  | .lzma fault => fault.text
  | .entryOutsideFile => "[Errno 22] Invalid argument"
  | .entryOutOfRange => "cannot fit 'int' into an offset-sized integer"
  | .dataEnds => ""

/-- Whether an error says that the archive is damaged or lacks the entry, and not that it
needs something this reader does not do. -/
def Error.isDamage : Error → Bool
  | .unsupportedVersion _ => false
  | .compressedPatch => false
  | .strongEncryption => false
  | .encrypted _ => false
  | .unsupportedMethod => false
  | .inflate _ => false
  | .bzip2 => false
  | .lzma _ => false
  | .entryOutsideFile => false
  | .entryOutOfRange => false
  | .dataEnds => false
  | _ => true

def field (bs : Bytes) (offset width : Nat) : Nat :=
  Bytes.natLE ((bs.drop offset).take width)

def slice (bs : Bytes) (offset length : Nat) : Bytes := (bs.drop offset).take length

def endMagic : Bytes := [0x50, 0x4B, 0x05, 0x06]

def wideLocatorMagic : Bytes := [0x50, 0x4B, 0x06, 0x07]

def wideEndMagic : Bytes := [0x50, 0x4B, 0x06, 0x06]

def directoryMagic : Bytes := [0x50, 0x4B, 0x01, 0x02]

def headerMagic : Bytes := [0x50, 0x4B, 0x03, 0x04]

/-! ## Finding the directory -/

def lastIndexOf (magic : Bytes) (place : Nat) (found : Option Nat) : Bytes → Option Nat
  | [] => found
  | b :: rest =>
    lastIndexOf magic (place + 1)
      (if magic.isPrefixOf (b :: rest) then some place else found) rest

/-- Where the end record stands: at the very end when it has no comment, otherwise the
last that starts within the length of the longest comment. -/
def endRecord? (archive : Bytes) : Option Nat :=
  let size := archive.length
  if size < 22 then none
  else
    let tail := archive.drop (size - 22)
    if endMagic.isPrefixOf tail ∧ field tail 20 2 = 0 then some (size - 22)
    else
      let first := size - 65558
      match lastIndexOf endMagic first none (archive.drop first) with
      | some place => if place + 22 ≤ size then some place else none
      | none => none

/-- Where the directory starts, its size, and how far all offsets are shifted by data
before the archive. -/
structure Directory where
  start : Nat
  size : Nat
  shift : Int

/-- Places the directory of the given size and offset right before the end record, with
`between` bytes between the two. -/
def placeDirectory (endPlace between size offset : Nat) : Except Error Directory :=
  if endPlace < size + between then .error .badDirectoryOffset
  else
    let start := endPlace - between - size
    .ok ⟨start, size, (start : Int) - offset⟩

/-- Sizes that do not fit are in a wide end record before the end record. -/
def directory (archive : Bytes) : Except Error Directory :=
  match endRecord? archive with
  | none => .error .notAnArchive
  | some place =>
    let record := slice archive place 22
    let plain := placeDirectory place 0 (field record 12 4) (field record 16 4)
    if place < 20 then plain
    else
      let locator := slice archive (place - 20) 20
      if !wideLocatorMagic.isPrefixOf locator then plain
      else if field locator 4 4 ≠ 0 ∨ 1 < field locator 16 4 then .error .spansDisks
      else if place < 76 then .error .notAnArchive
      else
        let wide := slice archive (place - 76) 56
        if !wideEndMagic.isPrefixOf wide then plain
        else placeDirectory place 76 (field wide 40 8) (field wide 48 8)

/-! ## Entries -/

def upperHalf : List Nat :=
  [0xC7, 0xFC, 0xE9, 0xE2, 0xE4, 0xE0, 0xE5, 0xE7, 0xEA, 0xEB, 0xE8, 0xEF, 0xEE, 0xEC, 0xC4,
   0xC5, 0xC9, 0xE6, 0xC6, 0xF4, 0xF6, 0xF2, 0xFB, 0xF9, 0xFF, 0xD6, 0xDC, 0xA2, 0xA3, 0xA5,
   0x20A7, 0x192, 0xE1, 0xED, 0xF3, 0xFA, 0xF1, 0xD1, 0xAA, 0xBA, 0xBF, 0x2310, 0xAC, 0xBD, 0xBC,
   0xA1, 0xAB, 0xBB, 0x2591, 0x2592, 0x2593, 0x2502, 0x2524, 0x2561, 0x2562, 0x2556, 0x2555,
   0x2563, 0x2551, 0x2557, 0x255D, 0x255C, 0x255B, 0x2510, 0x2514, 0x2534, 0x252C, 0x251C,
   0x2500, 0x253C, 0x255E, 0x255F, 0x255A, 0x2554, 0x2569, 0x2566, 0x2560, 0x2550, 0x256C,
   0x2567, 0x2568, 0x2564, 0x2565, 0x2559, 0x2558, 0x2552, 0x2553, 0x256B, 0x256A, 0x2518,
   0x250C, 0x2588, 0x2584, 0x258C, 0x2590, 0x2580, 0x3B1, 0xDF, 0x393, 0x3C0, 0x3A3, 0x3C3, 0xB5,
   0x3C4, 0x3A6, 0x398, 0x3A9, 0x3B4, 0x221E, 0x3C6, 0x3B5, 0x2229, 0x2261, 0xB1, 0x2265, 0x2264,
   0x2320, 0x2321, 0xF7, 0x2248, 0xB0, 0x2219, 0xB7, 0x221A, 0x207F, 0xB2, 0x25A0, 0xA0]

def oldNameChar (b : UInt8) : Char :=
  if b.toNat < 0x80 then Char.ofNat b.toNat
  else Char.ofNat (upperHalf.getD (b.toNat - 0x80) 0)

def decodeName (isUtf8 : Bool) (bs : Bytes) : Except Error String :=
  if isUtf8 then
    match Text.Utf8.decode bs with
    | .ok name => .ok name
    | .error e => .error (.entryName e)
  else .ok (String.ofList (bs.map oldNameChar))

structure Entry where
  /-- The name as written. -/
  fullName : String
  flags : Nat
  method : Nat
  checksum : Nat
  packedSize : Nat
  size : Nat
  offset : Int

def Entry.name (e : Entry) : String :=
  String.ofList (e.fullName.toList.takeWhile (·.toNat != 0))

def hasFlag (flags bit : Nat) : Bool := flags.testBit bit

structure Extent where
  size : Nat
  packedSize : Nat
  offset : Nat

/-- Takes eight bytes of a wide extra field in place of `value` when it is the mark of a
number that did not fit. -/
def widen (name : String) (isMark : Bool) (value : Nat) (data : Bytes) :
    Except Error (Nat × Bytes) :=
  if !isMark then .ok (value, data)
  else if data.length < 8 then .error (.corruptWideExtra name)
  else .ok (field data 0 8, data.drop 8)

def widenExtent (x : Extent) (data : Bytes) : Except Error Extent := do
  let (size, data) ←
    widen "File size" (x.size == 0xFFFFFFFFFFFFFFFF || x.size == 0xFFFFFFFF) x.size data
  let (packedSize, data) ← widen "Compress size" (x.packedSize == 0xFFFFFFFF) x.packedSize data
  let (offset, _) ← widen "Header offset" (x.offset == 0xFFFFFFFF) x.offset data
  return ⟨size, packedSize, offset⟩

def readExtra (x : Extent) : Bytes → Except Error Extent
  | a :: b :: c :: d :: rest => do
    let tag := Bytes.natLE [a, b]
    let length := Bytes.natLE [c, d]
    if rest.length < length then throw (.corruptExtra tag length)
    let x ← if tag = 1 then widenExtent x (rest.take length) else pure x
    readExtra x (rest.drop length)
  | _ => .ok x
termination_by bs => bs.length
decreasing_by simp only [List.length_drop, List.length_cons]; omega

def readEntry (shift : Int) (record rest : Bytes) : Except Error Entry := do
  let nameLength := field record 28 2
  let flags := field record 8 2
  let fullName ← decodeName (hasFlag flags 11) (rest.take nameLength)
  let version := field record 6 1
  if 63 < version then throw (.unsupportedVersion version)
  let extent ← readExtra ⟨field record 24 4, field record 20 4, field record 42 4⟩
    (slice rest nameLength (field record 30 2))
  return ⟨fullName, flags, field record 10 2, field record 16 4, extent.packedSize, extent.size,
    extent.offset + shift⟩

def readEntries (shift : Int) : Bytes → Except Error (List Entry)
  | [] => .ok []
  | b :: rest => do
    let record := (b :: rest).take 46
    if record.length < 46 then throw .truncatedDirectory
    if !directoryMagic.isPrefixOf record then throw .badDirectoryMagic
    let entry ← readEntry shift record (rest.drop 45)
    let length := field record 28 2 + field record 30 2 + field record 32 2
    return entry :: (← readEntries shift (rest.drop (45 + length)))
termination_by bs => bs.length
decreasing_by simp only [List.length_drop, List.length_cons]; omega

/-- Where the data of the entry at `index` has to end: at the nearest higher offset of
another entry, or at the directory if there is none. An entry that shares its offset with
an earlier one has no room at all. -/
def limit (start : Nat) (entries : List Entry) (index : Nat) (e : Entry) : Int :=
  if (entries.take index).any (·.offset == e.offset) then e.offset
  else ((entries.map Entry.offset).filter (e.offset < ·)).min?.getD start

/-! ## Reading -/

def isOffset (n : Int) : Bool := -(Nat.pow 2 63 : Int) ≤ n && n < Nat.pow 2 63

/-- The size of the largest file that there can be, in blocks of `2 ^ 12` bytes numbered
with 32 bits. -/
def largestFile : Int := (Nat.pow 2 32 - 1 : Int) * Nat.pow 2 12

def packedBytes (archive : Bytes) (name : Text) (e : Entry) (limit : Int) :
    Except Error Bytes := do
  if !isOffset e.offset then throw .entryOutOfRange
  if e.offset < 0 ∨ largestFile < e.offset then throw .entryOutsideFile
  let place := e.offset.toNat
  let header := slice archive place 30
  if header.length < 30 then throw .truncatedHeader
  if !headerMagic.isPrefixOf header then throw .badHeaderMagic
  let nameBytes := slice archive (place + 30) (field header 26 2)
  if hasFlag e.flags 5 then throw .compressedPatch
  if hasFlag e.flags 6 then throw .strongEncryption
  let inHeader ← decodeName (hasFlag (field header 6 2) 11) nameBytes
  if inHeader ≠ e.fullName then throw (.namesDiffer e.fullName nameBytes)
  let data := min archive.length (place + 30 + field header 26 2 + field header 28 2)
  if limit < (data : Int) + e.packedSize then throw (.overlapped e.fullName)
  if hasFlag e.flags 0 then throw (.encrypted name)
  return slice archive data e.packedSize

inductive Method where
  | stored
  | deflated
  | blockSorted
  | rangeCoded
  deriving DecidableEq, Repr

def Method.ofNat? (n : Nat) : Option Method :=
  [(0, stored), (8, deflated), (12, blockSorted), (14, rangeCoded)].lookup n

def Method.unpack (packed : Bytes) : Method → Except Error Unpacked
  | .stored => .ok ⟨packed, false⟩
  | .deflated => (inflate packed).mapError .inflate
  | .blockSorted => (bunzip2 packed).elim (.error .bzip2) .ok
  | .rangeCoded => (unlzma packed).mapError .lzma

/-- The content of an entry, cut to its size and checked against its checksum. Packed bytes
may be missing if the content is complete without them. -/
def unpack (e : Entry) (packed : Bytes) : Except Error Bytes := do
  let some method := Method.ofNat? e.method | throw .unsupportedMethod
  if packed.isEmpty ∧ e.packedSize ≠ 0 then throw .dataEnds
  let result ← method.unpack packed
  let content := result.bytes.take e.size
  if packed.length < e.packedSize ∧ !result.ended ∧ content.length < e.size then throw .dataEnds
  if crc32 content ≠ e.checksum then throw (.badChecksum e.name)
  return content

end Zip

def Zip.read (archive : Bytes) (name : Text) : Except Zip.Error Bytes := do
  let directory ← Zip.directory archive
  let entries ← Zip.readEntries directory.shift (Zip.slice archive directory.start directory.size)
  match entries.zipIdx.reverse.find? (fun e => Text.ofString e.1.name == name) with
  | none => throw (.noSuchEntry name)
  | some (entry, index) =>
    let limit := Zip.limit directory.start entries index entry
    Zip.unpack entry (← Zip.packedBytes archive name entry limit)

end NeoListing

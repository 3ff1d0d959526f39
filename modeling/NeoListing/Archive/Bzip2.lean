import NeoListing.Archive.Packed
import NeoListing.Digest.Crc32

/-! # Block-sorted data

Data of this kind is a row of blocks, read bit by bit, the most significant bit of a byte
first. Each block is undone in the reverse order of its making: words of up to six codes,
places in a list whose front is the latest used byte, the last column of the sorted
rotations, and runs. A block counts only when it is complete. Room for the data is made step
by step, and only as long as there is something left to read.
-/

namespace NeoListing.Bzip2

abbrev Bits := List Bool

abbrev Reader := StateT Bits (Except Unpacked.Stop)

def byteBits (b : UInt8) : Bits :=
  (List.range 8).map (fun i => b.toNat.testBit (7 - i))

def bit : Reader Bool
  | [] => .error .dataEnds
  | b :: rest => .ok (b, rest)

def more (n : Nat) : Nat → Reader Nat
  | 0 => return n
  | count + 1 => do
    let b ← bit
    more (2 * n + b.toNat) count

def number (count : Nat) : Reader Nat := more 0 count

def require (condition : Bool) : Reader Unit :=
  if condition then return () else throw .invalid

def expect : List Nat → Reader Unit
  | [] => return ()
  | b :: rest => do
    require ((← number 8) == b)
    expect rest

/-! ## Codes -/

structure Code where
  shortest : Nat
  counts : List Nat
  symbols : Array Nat

def longest : Nat := 20

def Code.ofLengths (lengths : List Nat) : Code :=
  let rows := lengths.zipIdx.mergeSort (fun a b => a.1 ≤ b.1)
  ⟨(rows.head?.map Prod.fst).getD 1, (List.range (longest + 1)).map (fun l => lengths.count l),
    (rows.map Prod.snd).toArray⟩

/-- Compares a word with those of its length, of which `first` is the first and `before` says
how many words are shorter, and takes one more bit while it is greater than all of them. -/
def Code.search (code : Code) : Nat → Nat → Nat → Nat → Nat → Reader Nat
  | 0, _, _, _, _ => throw .invalid
  | steps + 1, length, first, before, word => do
    let next := first + code.counts.getD length 0
    if word < next then return code.symbols.getD (before + (word - first)) 0
    let b ← bit
    code.search steps (length + 1) (2 * next) (before + code.counts.getD length 0)
      (2 * word + b.toNat)

def Code.symbol (code : Code) : Reader Nat := do
  let word ← number code.shortest
  code.search (longest + 1 - code.shortest) code.shortest 0 0 word

/-- Moves a length up and down by steps until it is confirmed. Each step takes bits, so their
number bounds the steps. -/
def lengthFrom : Nat → Nat → Reader Nat
  | 0, _ => throw .dataEnds
  | fuel + 1, length => do
    require (1 ≤ length && length ≤ longest)
    if !(← bit) then return length
    if ← bit then lengthFrom fuel (length - 1) else lengthFrom fuel (length + 1)

def lengthsFrom (fuel length : Nat) : Nat → Reader (List Nat)
  | 0 => return []
  | count + 1 => do
    let length ← lengthFrom fuel length
    return length :: (← lengthsFrom fuel length count)

def readCodes (fuel alphabet : Nat) : Nat → Reader (List Code)
  | 0 => return []
  | count + 1 => do
    let lengths ← lengthsFrom fuel (← number 5) alphabet
    return Code.ofLengths lengths :: (← readCodes fuel alphabet count)

/-! ## The head of a block -/

def marked (start : Nat) (marks : Nat) : Bytes :=
  ((List.range 16).filter (fun i => marks.testBit (15 - i))).map (fun i => UInt8.ofNat (start + i))

def usedIn : List Nat → Reader Bytes
  | [] => return []
  | start :: rest => do
    let bytes := marked start (← number 16)
    return bytes ++ (← usedIn rest)

def readUsed : Reader Bytes := do
  let groups ← number 16
  usedIn (((List.range 16).filter (fun i => groups.testBit (15 - i))).map (16 * ·))

def unary (bound : Nat) : Nat → Nat → Reader Nat
  | 0, _ => throw .invalid
  | steps + 1, n => do
    if !(← bit) then return n
    require (n + 1 < bound)
    unary bound steps (n + 1)

def toFront {α : Type} (items : List α) (place : Nat) : List α :=
  (items[place]?).toList ++ items.eraseIdx place

def readSelectors (codes : Nat) (recent : List Nat) : Nat → Reader (List Nat)
  | 0 => return []
  | count + 1 => do
    let recent := toFront recent (← unary codes (codes + 1) 0)
    return recent.headD 0 :: (← readSelectors codes recent count)

/-- More selectors than this cannot be of use and are passed over. -/
def maxSelectors : Nat := 18002

/-! ## The column -/

structure Progress where
  /-- The codes of the groups to come. -/
  groups : List Code
  code : Code
  /-- How many symbols are left in the present group. -/
  left : Nat
  /-- The bytes in use, the latest first. -/
  recent : Bytes
  /-- How long the run of the latest byte is so far, and what the next digit is worth. -/
  run : Nat
  weight : Nat
  column : Array UInt8

def nextSymbol (p : Progress) : Reader (Nat × Progress) := do
  let p ← if p.left ≠ 0 then pure p else
    match p.groups with
    | [] => throw .invalid
    | code :: groups => pure ⟨groups, code, 50, p.recent, p.run, p.weight, p.column⟩
  let s ← p.code.symbol
  return (s, ⟨p.groups, p.code, p.left - 1, p.recent, p.run, p.weight, p.column⟩)

def fill (b : UInt8) : Nat → Array UInt8 → Array UInt8
  | 0, out => out
  | n + 1, out => fill b n (out.push b)

/-- Reads symbols to the end of the block. The two lowest are the digits of the length of a
run. Each symbol takes a bit, so the number of bits left bounds their number. -/
def readColumn (last maxSize : Nat) : Nat → Progress → Reader (Array UInt8)
  | 0, _ => throw .dataEnds
  | fuel + 1, p => do
    let (s, p) ← nextSymbol p
    if s < 2 then
      require (p.weight < Nat.pow 2 21)
      readColumn last maxSize fuel
        ⟨p.groups, p.code, p.left, p.recent, p.run + (s + 1) * p.weight, 2 * p.weight, p.column⟩
    else
      require (p.column.size + p.run ≤ maxSize)
      let column := fill (p.recent.headD 0) p.run p.column
      if s = last then return column
      require (column.size < maxSize)
      let recent := toFront p.recent (s - 1)
      readColumn last maxSize fuel
        ⟨p.groups, p.code, p.left, recent, 0, 1, column.push (recent.headD 0)⟩

/-! ## From the column to the data -/

def successors (column : Array UInt8) : Array Nat :=
  ((column.toList.zipIdx.mergeSort (fun a b => a.1 ≤ b.1)).map Prod.snd).toArray

def walk (column : Array UInt8) (next : Array Nat) : Nat → Nat → Bytes → Bytes
  | 0, _, out => out.reverse
  | count + 1, place, out =>
    walk column next count (next.getD place 0) (column.getD place 0 :: out)

/-- The bytes of the block whose row in the sorted rotations is `origin`, and one more, as the
way through the places goes on. -/
def unsort (column : Array UInt8) (origin : Nat) : Bytes :=
  let next := successors column
  walk column next (column.size + 1) (next.getD origin 0) []

def gaps : List Nat :=
  [619, 720, 127, 481, 931, 816, 813, 233, 566, 247, 985, 724, 205, 454, 863, 491, 741, 242, 949,
   214, 733, 859, 335, 708, 621, 574, 73, 654, 730, 472, 419, 436, 278, 496, 867, 210, 399, 680,
   480, 51, 878, 465, 811, 169, 869, 675, 611, 697, 867, 561, 862, 687, 507, 283, 482, 129, 807,
   591, 733, 623, 150, 238, 59, 379, 684, 877, 625, 169, 643, 105, 170, 607, 520, 932, 727, 476,
   693, 425, 174, 647, 73, 122, 335, 530, 442, 853, 695, 249, 445, 515, 909, 545, 703, 919, 874,
   474, 882, 500, 594, 612, 641, 801, 220, 162, 819, 984, 589, 513, 495, 799, 161, 604, 958, 533,
   221, 400, 386, 867, 600, 782, 382, 596, 414, 171, 516, 375, 682, 485, 911, 276, 98, 553, 163,
   354, 666, 933, 424, 341, 533, 870, 227, 730, 475, 186, 263, 647, 537, 686, 600, 224, 469, 68,
   770, 919, 190, 373, 294, 822, 808, 206, 184, 943, 795, 384, 383, 461, 404, 758, 839, 887, 715,
   67, 618, 276, 204, 918, 873, 777, 604, 560, 951, 160, 578, 722, 79, 804, 96, 409, 713, 940,
   652, 934, 970, 447, 318, 353, 859, 672, 112, 785, 645, 863, 803, 350, 139, 93, 354, 99, 820,
   908, 609, 772, 154, 274, 580, 184, 79, 626, 630, 742, 653, 282, 762, 623, 680, 81, 927, 626,
   789, 125, 411, 521, 938, 300, 821, 78, 343, 175, 128, 250, 170, 774, 972, 275, 999, 639, 495,
   78, 352, 126, 857, 956, 358, 619, 580, 124, 737, 594, 701, 612, 669, 112, 134, 694, 363, 992,
   809, 743, 168, 974, 944, 375, 748, 52, 600, 747, 642, 182, 862, 81, 344, 805, 988, 739, 511,
   655, 814, 334, 249, 515, 897, 955, 664, 981, 649, 113, 974, 459, 893, 228, 433, 837, 553, 268,
   926, 240, 102, 654, 459, 51, 686, 754, 806, 760, 493, 403, 415, 394, 687, 700, 946, 670, 656,
   610, 738, 392, 760, 799, 887, 653, 978, 321, 576, 617, 626, 502, 894, 679, 243, 440, 680, 879,
   194, 572, 640, 724, 926, 56, 204, 700, 707, 151, 457, 449, 797, 195, 791, 558, 945, 679, 297,
   59, 87, 824, 713, 663, 412, 693, 342, 606, 134, 108, 571, 364, 631, 212, 174, 643, 304, 329,
   343, 97, 430, 751, 497, 314, 983, 374, 822, 928, 140, 206, 73, 263, 980, 736, 876, 478, 430,
   305, 170, 514, 364, 692, 829, 82, 855, 953, 676, 246, 369, 970, 294, 750, 807, 827, 150, 790,
   288, 923, 804, 378, 215, 828, 592, 281, 565, 555, 710, 82, 896, 831, 547, 261, 524, 462, 293,
   465, 502, 56, 661, 821, 976, 991, 658, 869, 905, 758, 745, 193, 768, 550, 608, 933, 378, 286,
   215, 979, 792, 961, 61, 688, 793, 644, 986, 403, 106, 366, 905, 644, 372, 567, 466, 434, 645,
   210, 389, 550, 919, 135, 780, 773, 635, 389, 707, 100, 626, 958, 165, 504, 920, 176, 193, 713,
   857, 265, 203, 50, 668, 108, 645, 990, 626, 197, 510, 357, 358, 850, 858, 364, 936, 638]

/-- Undoes scrambling: after each gap the lowest bit of a byte is inverted. `toGo` counts down
to the end of the present gap, and `out` holds the bytes so far, last first. -/
def unscramble (toGo : Nat) (rest : List Nat) (out : Bytes) : Bytes → Bytes
  | [] => out.reverse
  | b :: bs =>
    let (toGo, rest) := if toGo ≠ 0 then (toGo, rest) else
      match rest with
      | gap :: rest => (gap, rest)
      | [] => (gaps.headD 0, gaps.drop 1)
    unscramble (toGo - 1) rest ((if toGo = 2 then b ^^^ 1 else b) :: out) bs

structure Block where
  data : Bytes
  /-- Whether the last run has its count. -/
  complete : Bool
  scrambled : Bool
  checksum : Nat

def Block.isSound (b : Block) : Bool :=
  b.complete && (crc32Forward b.data).toNat == b.checksum

def Block.reach (b : Block) : Nat :=
  if b.scrambled && !b.complete then b.data.length + 1 else b.data.length

/-- Undoes runs: after four equal bytes stands how many more there are. `count` says how many
of the last bytes are equal to `last`, `out` holds the bytes so far, and `after` stands for the
count that a run at the end may lack. Gives the bytes and whether no count was lacking. -/
def expandRuns (after last : UInt8) (count : Nat) (out : Array UInt8) : Bytes → Bytes × Bool
  | [] => if count = 4 then ((fill last after.toNat out).toList, false) else (out.toList, true)
  | b :: rest =>
    if count = 4 then expandRuns after 0 0 (fill last b.toNat out) rest
    else expandRuns after b (if count ≠ 0 ∧ last = b then count + 1 else 1) (out.push b) rest

def readBlock (level : Nat) : Reader Block := do
  let checksum ← number 32
  let scrambled ← bit
  let origin ← number 24
  require (origin ≤ 10 + 100000 * level)
  let used ← readUsed
  require (!used.isEmpty)
  let codeCount ← number 3
  require (2 ≤ codeCount && codeCount ≤ 6)
  let selectorCount ← number 15
  require (1 ≤ selectorCount)
  let selectors ← readSelectors codeCount (List.range codeCount) selectorCount
  let fuel := (← get).length + 1
  let codes := (← readCodes fuel (used.length + 2) codeCount).toArray
  let groups := (selectors.take maxSelectors).filterMap (codes[·]?)
  let start : Progress := ⟨groups, .ofLengths [], 0, used, 0, 1, #[]⟩
  let column ← readColumn (used.length + 1) (100000 * level) fuel start
  require (origin < column.size)
  let unsorted := unsort column origin
  let bytes := if scrambled then unscramble 0 gaps [] unsorted else unsorted
  let (data, complete) := expandRuns (bytes.getLastD 0) 0 0 #[] bytes.dropLast
  return ⟨data, complete, scrambled, checksum⟩

/-! ## The whole -/

inductive Item where
  | block (b : Block)
  /-- The end, with a checksum of all checksums. -/
  | finish (checksum : Nat)

def readItem (level : Nat) : Reader Item := do
  let first ← number 8
  if first = 0x17 then
    expect [0x72, 0x45, 0x38, 0x50, 0x90]
    return .finish (← number 32)
  else
    require (first == 0x31)
    expect [0x41, 0x59, 0x26, 0x53, 0x59]
    return .block (← readBlock level)

def firstRoom : Nat := Nat.pow 2 15

def roomSteps : List Nat :=
  [2, 8, 32, 128, 256, 512, 512, 1024, 1024, 1024, 1024, 2048, 2048, 4096, 4096]

def lastRoomStep : Nat := Nat.pow 2 28

def roomFrom (room size : Nat) : List Nat → Nat
  | [] => room + (size - room + (lastRoomStep - 1)) / lastRoomStep * lastRoomStep
  | step :: steps => if size ≤ room then room else roomFrom (room + step * firstRoom) size steps

def roomFor (size : Nat) : Nat := roomFrom firstRoom size roomSteps

structure Output where
  blocks : List Bytes
  size : Nat
  sum : UInt32

namespace Output

def bytes (o : Output) : Bytes := o.blocks.reverse.flatten

def add (o : Output) (data : Bytes) : Output :=
  ⟨data :: o.blocks, o.size + data.length,
    ((o.sum <<< 1) ||| (o.sum >>> 31)) ^^^ crc32Forward data⟩

def room (o : Output) : Nat := roomFor o.size - o.size

end Output

/-- Reads blocks to the end. A block behind which no byte is left goes no further than the
room does, and if it does not fit, its end is not looked at. Each block takes at least a bit, so
the number of bits bounds their number. -/
def readItems (level : Nat) : Nat → Output → Bits → Option Unpacked
  | 0, out, _ => some ⟨out.bytes, false⟩
  | fuel + 1, out, bits =>
    match (readItem level).run bits with
    | .error .dataEnds => some ⟨out.bytes, false⟩
    | .error .invalid => none
    | .ok (.finish checksum, _) =>
      if out.sum.toNat = checksum then some ⟨out.bytes, true⟩ else none
    | .ok (.block b, rest) =>
      if rest.length < 8 ∧ out.room < b.reach then
        some ⟨(out.add (b.data.take out.room)).bytes, false⟩
      else if b.isSound then readItems level fuel (out.add b.data) rest
      else none

def readLevel : Reader Nat := do
  expect [0x42, 0x5A, 0x68]
  let digit ← number 8
  require (0x31 ≤ digit && digit ≤ 0x39)
  return digit - 0x30

end Bzip2

def bunzip2 (packed : Bytes) : Option Unpacked :=
  let bits := packed.flatMap Bzip2.byteBits
  match Bzip2.readLevel.run bits with
  | .error .dataEnds => some ⟨[], false⟩
  | .error .invalid => none
  | .ok (level, rest) => Bzip2.readItems level (bits.length + 1) ⟨[], 0, 0⟩ rest

end NeoListing

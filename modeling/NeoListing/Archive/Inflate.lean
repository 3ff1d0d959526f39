import NeoListing.Archive.Packed

/-! # Inflating

Reads deflated data bit by bit. Data that ends early is no fault: what was inflated up to
there is the result, with a word on whether the last block was reached. A fault anywhere
discards the result.
-/

namespace NeoListing.Inflate

abbrev Bits := List Bool

inductive Fault where
  | blockType
  | storedLengths
  | tooManySymbols
  | codeLengthsSet
  | lengthRepeat
  | missingEnd
  | literalSet
  | distanceSet
  | literalCode
  | distanceCode
  | distanceTooFar
  deriving DecidableEq, Repr

def Fault.text : Fault → String
  | .blockType => "invalid block type"
  | .storedLengths => "invalid stored block lengths"
  | .tooManySymbols => "too many length or distance symbols"
  | .codeLengthsSet => "invalid code lengths set"
  | .lengthRepeat => "invalid bit length repeat"
  | .missingEnd => "invalid code -- missing end-of-block"
  | .literalSet => "invalid literal/lengths set"
  | .distanceSet => "invalid distances set"
  | .literalCode => "invalid literal/length code"
  | .distanceCode => "invalid distance code"
  | .distanceTooFar => "invalid distance too far back"

inductive Stop where
  | dataEnds
  | fault (f : Fault)

structure Got (α : Type) where
  value : α
  used : Nat

def byteBits (b : UInt8) : Bits :=
  (List.range 8).map (fun i => b.toNat.testBit i)

def bitsValue : Bits → Nat
  | [] => 0
  | b :: rest => b.toNat + 2 * bitsValue rest

def take (n : Nat) (bits : Bits) : Except Stop (Got Nat) :=
  let front := bits.take n
  if front.length < n then .error .dataEnds else .ok ⟨bitsValue front, n⟩

/-! ## Codes -/

/-- A code as the tree of its words; `void` marks words that stand for nothing. -/
inductive Code where
  | void
  | leaf (symbol : Nat)
  | node (zero one : Code)

def Code.walk : Code → Nat → Bits → Except Stop (Got (Option Nat))
  | .leaf symbol, used, _ => .ok ⟨some symbol, used⟩
  | .void, used, _ => .ok ⟨none, used⟩
  | .node _ _, _, [] => .error .dataEnds
  | .node zero _, used, false :: bits => zero.walk (used + 1) bits
  | .node _ one, used, true :: bits => one.walk (used + 1) bits

/-- Builds the part of a code below a word of `depth` bits from pairs of length and
symbol in ascending order, and gives the pairs that are left. -/
def Code.grow : Nat → Nat → List (Nat × Nat) → Code × List (Nat × Nat)
  | _, _, [] => (.void, [])
  | 0, _, (_, symbol) :: rest => (.leaf symbol, rest)
  | levels + 1, depth, (length, symbol) :: rest =>
    if length = depth then (.leaf symbol, rest)
    else
      let (zero, rest) := grow levels (depth + 1) ((length, symbol) :: rest)
      let (one, rest) := grow levels (depth + 1) rest
      (.node zero one, rest)

def longest : Nat := 15

def Code.ofLengths (lengths : List Nat) : Code :=
  let used := (lengths.zipIdx.filter (·.1 != 0)).mergeSort (fun a b => a.1 ≤ b.1)
  (grow longest 0 used).1

def space (lengths : List Nat) : Nat :=
  (lengths.map (fun l => if l = 0 then 0 else Nat.pow 2 (longest - l))).foldr (· + ·) 0

/-- A set of lengths must fill the space of words. A set for literals or distances may
also be empty, when every word stands for nothing, or hold words of one bit only. -/
def codeFor (fault : Fault) (lengths : List Nat) : Except Fault Code :=
  if lengths.all (· == 0) then .ok (.node .void .void)
  else if space lengths = Nat.pow 2 longest then .ok (.ofLengths lengths)
  else if space lengths < Nat.pow 2 longest ∧ lengths.all (· ≤ 1) then .ok (.ofLengths lengths)
  else .error fault

/-- The set for code lengths must be complete; an empty one reads as zero throughout. -/
def lengthCodeFor (lengths : List Nat) : Except Fault Code :=
  if lengths.all (· == 0) then .ok (.node (.leaf 0) (.leaf 0))
  else if space lengths = Nat.pow 2 longest then .ok (.ofLengths lengths)
  else .error .codeLengthsSet

/-! ## Symbols -/

def lengthTable : List (Nat × Nat) :=
  [(3, 0), (4, 0), (5, 0), (6, 0), (7, 0), (8, 0), (9, 0), (10, 0), (11, 1), (13, 1), (15, 1),
   (17, 1), (19, 2), (23, 2), (27, 2), (31, 2), (35, 3), (43, 3), (51, 3), (59, 3), (67, 4),
   (83, 4), (99, 4), (115, 4), (131, 5), (163, 5), (195, 5), (227, 5), (258, 0)]

def distanceTable : List (Nat × Nat) :=
  [(1, 0), (2, 0), (3, 0), (4, 0), (5, 1), (7, 1), (9, 2), (13, 2), (17, 3), (25, 3), (33, 4),
   (49, 4), (65, 5), (97, 5), (129, 6), (193, 6), (257, 7), (385, 7), (513, 8), (769, 8),
   (1025, 9), (1537, 9), (2049, 10), (3073, 10), (4097, 11), (6145, 11), (8193, 12), (12289, 12),
   (16385, 13), (24577, 13)]

inductive Symbol where
  | literal (b : UInt8)
  | copy (length distance : Nat)
  | endOfBlock

def symbol (literals distances : Code) (bits : Bits) : Except Stop (Got Symbol) := do
  let s ← literals.walk 0 bits
  match s.value with
  | none => throw (.fault .literalCode)
  | some n =>
    if n < 256 then return ⟨.literal (UInt8.ofNat n), s.used⟩
    else if n = 256 then return ⟨.endOfBlock, s.used⟩
    else match lengthTable[n - 257]? with
      | none => throw (.fault .literalCode)
      | some (base, extra) =>
        let more ← take extra (bits.drop s.used)
        let used := s.used + more.used
        let d ← distances.walk 0 (bits.drop used)
        match d.value.bind (distanceTable[·]?) with
        | none => throw (.fault .distanceCode)
        | some (dbase, dextra) =>
          let used := used + d.used
          let dmore ← take dextra (bits.drop used)
          return ⟨.copy (base + more.value) (dbase + dmore.value), used + dmore.used⟩

def copyBack (distance : Nat) : Nat → Array UInt8 → Array UInt8
  | 0, out => out
  | n + 1, out => copyBack distance n (out.push (out.getD (out.size - distance) 0))

/-- What a run of blocks has inflated so far, and how it goes on: with the number of bits
used when the block ended, or not at all. -/
structure Progress where
  out : Array UInt8
  next : Except Stop Nat

def symbols (literals distances : Code) (used : Nat) (out : Array UInt8) : Bits → Progress
  | [] => ⟨out, .error .dataEnds⟩
  | b :: rest =>
    match symbol literals distances (b :: rest) with
    | .error stop => ⟨out, .error stop⟩
    | .ok got =>
      match got.value with
      | .endOfBlock => ⟨out, .ok (used + got.used)⟩
      | .literal c =>
        symbols literals distances (used + got.used) (out.push c) (rest.drop (got.used - 1))
      | .copy length distance =>
        if out.size < distance then ⟨out, .error (.fault .distanceTooFar)⟩
        else
          symbols literals distances (used + got.used) (copyBack distance length out)
            (rest.drop (got.used - 1))
termination_by bits => bits.length
decreasing_by all_goals (simp only [List.length_drop, List.length_cons]; omega)

/-! ## Blocks -/

def storedBytes : Nat → Nat → Array UInt8 → Bits → Progress
  | 0, used, out, _ => ⟨out, .ok used⟩
  | count + 1, used, out, bits =>
    match take 8 bits with
    | .error stop => ⟨out, .error stop⟩
    | .ok b => storedBytes count (used + 8) (out.push (UInt8.ofNat b.value)) (bits.drop 8)

/-- A stored block starts at the next whole byte; `position` counts bits from the front
of all data. Its length is written twice, the second time inverted. -/
def stored (position used : Nat) (out : Array UInt8) (bits : Bits) : Progress :=
  let skip := (8 - (position + used) % 8) % 8
  let bits := bits.drop skip
  match take 32 bits with
  | .error stop => ⟨out, .error stop⟩
  | .ok lengths =>
    let length := lengths.value % 65536
    if length + lengths.value / 65536 = 65535 then
      storedBytes length (used + skip + 32) out (bits.drop 32)
    else ⟨out, .error (.fault .storedLengths)⟩

def fixedLiterals : Code :=
  .ofLengths
    (List.replicate 144 8 ++ List.replicate 112 9 ++ List.replicate 24 7 ++ List.replicate 8 8)

def fixedDistances : Code := .ofLengths (List.replicate 32 5)

def lengthOrder : List Nat := [16, 17, 18, 0, 8, 7, 9, 6, 10, 5, 11, 4, 12, 3, 13, 2, 14, 1, 15]

def threeBits : Nat → Bits → Except Stop (List Nat)
  | 0, _ => .ok []
  | count + 1, bits => do
    let n ← take 3 bits
    return n.value :: (← threeBits count (bits.drop 3))

def placeLengths (read : List Nat) : List Nat :=
  (List.range 19).map (fun s => ((lengthOrder.zip read).lookup s).getD 0)

def lengthRun (code : Code) (last : Option Nat) (bits : Bits) : Except Stop (Got (Nat × Nat)) := do
  let s ← code.walk 0 bits
  let rest := bits.drop s.used
  match s.value.getD 0 with
  | 16 =>
    let n ← take 2 rest
    match last with
    | none => throw (.fault .lengthRepeat)
    | some length => return ⟨(3 + n.value, length), s.used + 2⟩
  | 17 =>
    let n ← take 3 rest
    return ⟨(3 + n.value, 0), s.used + 3⟩
  | 18 =>
    let n ← take 7 rest
    return ⟨(11 + n.value, 0), s.used + 7⟩
  | length => return ⟨(1, length), s.used⟩

def codeLengths (code : Code) (total used : Nat) (read : List Nat) :
    Bits → Except Stop (Got (List Nat))
  | [] => if read.length = total then .ok ⟨read.reverse, used⟩ else .error .dataEnds
  | b :: rest =>
    if read.length = total then .ok ⟨read.reverse, used⟩
    else match lengthRun code read.head? (b :: rest) with
      | .error stop => .error stop
      | .ok run =>
        if total < read.length + run.value.1 then .error (.fault .lengthRepeat)
        else codeLengths code total (used + run.used)
          (List.replicate run.value.1 run.value.2 ++ read) (rest.drop (run.used - 1))
termination_by bits => bits.length
decreasing_by simp only [List.length_drop, List.length_cons]; omega

def orFault {α : Type} : Except Fault α → Except Stop α
  | .ok a => .ok a
  | .error f => .error (.fault f)

def dynamicCodes (bits : Bits) : Except Stop (Got (Code × Code)) := do
  let counts ← take 14 bits
  let literalCount := counts.value % 32 + 257
  let distanceCount := counts.value / 32 % 32 + 1
  let lengthCount := counts.value / 1024 + 4
  if 286 < literalCount ∨ 30 < distanceCount then throw (.fault .tooManySymbols)
  let bits := bits.drop 14
  let read ← threeBits lengthCount bits
  let code ← orFault (lengthCodeFor (placeLengths read))
  let lengths ← codeLengths code (literalCount + distanceCount) 0 [] (bits.drop (3 * lengthCount))
  let literals := lengths.value.take literalCount
  if literals.getD 256 0 = 0 then throw (.fault .missingEnd)
  let literalCode ← orFault (codeFor .literalSet literals)
  let distanceCode ← orFault (codeFor .distanceSet (lengths.value.drop literalCount))
  return ⟨(literalCode, distanceCode), 14 + 3 * lengthCount + lengths.used⟩

def body (type position used : Nat) (out : Array UInt8) (bits : Bits) : Progress :=
  match type with
  | 0 => stored position used out bits
  | 1 => symbols fixedLiterals fixedDistances used out bits
  | 2 =>
    match dynamicCodes bits with
    | .error stop => ⟨out, .error stop⟩
    | .ok got =>
      symbols got.value.1 got.value.2 (used + got.used) out (bits.drop got.used)
  | _ => ⟨out, .error (.fault .blockType)⟩

def blocks (position : Nat) (out : Array UInt8) : Bits → Except Fault Unpacked
  | [] => .ok ⟨out.toList, false⟩
  | last :: rest =>
    match take 2 rest with
    | .error _ => .ok ⟨out.toList, false⟩
    | .ok type =>
      let progress := body type.value position 3 out (rest.drop 2)
      match progress.next with
      | .error .dataEnds => .ok ⟨progress.out.toList, false⟩
      | .error (.fault f) => .error f
      | .ok used =>
        if last then .ok ⟨progress.out.toList, true⟩
        else blocks (position + used) progress.out (rest.drop (used - 1))
termination_by bits => bits.length
decreasing_by simp only [List.length_drop, List.length_cons]; omega

end Inflate

def inflate (packed : Bytes) : Except Inflate.Fault Unpacked :=
  Inflate.blocks 0 #[] (packed.flatMap Inflate.byteBits)

end NeoListing

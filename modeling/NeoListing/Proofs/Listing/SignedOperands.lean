import NeoListing.Proofs.Listing.CommentDefined

/-! # Signed operands

A signed operand is the two's complement of a number, least significant byte first. It reads back
as that number at every width, so the comment on an instruction does not tell its short form from
its long one.
-/

namespace NeoListing

namespace Bytes

theorem pow_eq_two_mul {width : Nat} (h : 0 < width) : 256 ^ width = 2 * 2 ^ (8 * width - 1) := by
  have hw : 8 * width = 8 * width - 1 + 1 := by omega
  calc 256 ^ width = 2 ^ (8 * width) := (Nat.pow_mul 2 8 width).symm
    _ = 2 * 2 ^ (8 * width - 1) := by rw [hw, Nat.pow_succ', Nat.add_sub_cancel]

theorem length_ofIntLE (width : Nat) (v : Int) : (ofIntLE width v).length = width :=
  length_ofNatLE width _

/-- A number that fits reads back from its two's complement. -/
theorem intLE_ofIntLE {width : Nat} (hw : 0 < width) {v : Int}
    (hl : -2 ^ (8 * width - 1) ≤ v) (hu : v < 2 ^ (8 * width - 1)) :
    intLE (ofIntLE width v) = v := by
  have hhalf : ((256 ^ width : Nat) : Int) = 2 * 2 ^ (8 * width - 1) := by
    rw [pow_eq_two_mul hw]
    push_cast
    rfl
  have hpos : (0 : Int) < (256 ^ width : Nat) := by positivity
  have hnonneg := Int.emod_nonneg v hpos.ne'
  have hlt := Int.emod_lt_of_pos v hpos
  have hread : natLE (ofIntLE width v) = (v % (256 ^ width : Nat)).toNat := by
    apply natLE_ofNatLE
    change (v % (256 ^ width : Nat)).toNat < 256 ^ width
    omega
  have hvalue : intLE (ofIntLE width v) =
      if 2 * (v % (256 ^ width : Nat)).toNat < 256 ^ width then
        ((v % (256 ^ width : Nat)).toNat : Int)
      else (v % (256 ^ width : Nat)).toNat - ((256 ^ width : Nat) : Int) := by
    rw [intLE, hread, length_ofIntLE]
    rfl
  rw [hvalue]
  generalize 256 ^ width = m at hhalf hpos hnonneg hlt
  -- a negative number is written as its distance from the bottom of the next range
  rcases lt_or_ge v 0 with hv | hv
  · have hmod : v % m = v + m := by
      rw [← Int.add_emod_right]
      exact Int.emod_eq_of_lt (by omega) (by omega)
    rw [if_neg (by omega)]
    omega
  · have hmod : v % m = v := Int.emod_eq_of_lt hv (by omega)
    rw [if_pos (by omega)]
    omega

def SignedByte (v : Int) : Prop := -2 ^ 7 ≤ v ∧ v < 2 ^ 7

instance (v : Int) : Decidable (SignedByte v) := inferInstanceAs (Decidable (_ ∧ _))

theorem intLE_ofIntLE_of_signedByte {width : Nat} (hw : 0 < width) {v : Int} (h : SignedByte v) :
    intLE (ofIntLE width v) = v := by
  obtain ⟨hl, hu⟩ := h
  have hpow : (2 : Int) ^ 7 ≤ 2 ^ (8 * width - 1) := pow_le_pow_right₀ (by decide) (by omega)
  exact intLE_ofIntLE hw (by linarith) (by linarith)

end Bytes

structure Opcode.LongForm (short long : Opcode) : Prop where
  short_mem : short ∈ table
  long_mem : long ∈ table
  name_eq : long.name = short.name ++ "_L"

namespace Comment

/-! ## Integers -/

theorem rule_of_pushInt :
    ∀ k ∈ [1, 2, 4, 8, 16, 32], rules.get? ("PUSHINT" ++ toString (8 * k)) = some .integer := by
  decide

theorem make_pushInt {k : Nat} (hk : k ∈ [1, 2, 4, 8, 16, 32]) {v : Int}
    (hl : -2 ^ (8 * k - 1) ≤ v) (hu : v < 2 ^ (8 * k - 1)) (context : Context) (address : Int) :
    make context ("PUSHINT" ++ toString (8 * k)) address (Bytes.ofIntLE k v) =
      .ok (Text.ofString (toString v)) := by
  have hsizes : ∀ k ∈ [1, 2, 4, 8, 16, 32], 0 < k ∧ k ≤ 32 := by decide
  obtain ⟨hpos, hmax⟩ := hsizes k hk
  have hv : Bytes.intLE (Bytes.ofIntLE k v) = v := Bytes.intLE_ofIntLE hpos hl hu
  have hw : Text.Writable (Bytes.intLE (Bytes.ofIntLE k v)) :=
    writable_intLE (by rwa [Bytes.length_ofIntLE])
  rw [make_of_rule (rule_of_pushInt k hk), Rule.comment, number_of_writable hw, hv]

/-! ## Jumps -/

/-- A jump is told by where it leads and how far. -/
theorem ofJump_eq {operand : Bytes} (h : operand.length ≤ 32) (address : Int) :
    ofJump address operand =
      if Text.Writable (address + Bytes.intLE operand) then
        .ok (Text.ofString ("pos: " ++ toString (address + Bytes.intLE operand) ++ ", offset: " ++
          toString (Bytes.intLE operand)))
      else .error .tooManyDigits := by
  unfold ofJump
  by_cases ht : Text.Writable (address + Bytes.intLE operand)
  · rw [if_pos ht]
    simp only [number_of_writable ht, number_of_writable (writable_intLE h), Text.ofString_append]
    rfl
  · rw [if_neg ht]
    simp only [number_of_not_writable ht]
    rfl

theorem make_jump {name : String} (h : rules.get? name = some .jump) {width : Nat}
    (hw : 0 < width ∧ width ≤ 32) {offset : Int} (ho : Bytes.SignedByte offset)
    (context : Context) (address : Int) :
    make context name address (Bytes.ofIntLE width offset) =
      if Text.Writable (address + offset) then
        .ok (Text.ofString ("pos: " ++ toString (address + offset) ++ ", offset: " ++
          toString offset))
      else .error .tooManyDigits := by
  have hlength : (Bytes.ofIntLE width offset).length ≤ 32 := by
    rw [Bytes.length_ofIntLE]
    exact hw.2
  rw [make_of_rule h, Rule.comment, ofJump_eq hlength,
    Bytes.intLE_ofIntLE_of_signedByte hw.1 ho]

theorem longForms_jump :
    (Opcode.table.filter fun op => op.layout = .fixed 1).all (fun short =>
      (Opcode.table.filter fun op => op.layout = .fixed 4).all fun long =>
        long.name != short.name ++ "_L" ||
          (rules.get? short.name == some .jump && rules.get? long.name == some .jump)) = true := by
  decide

theorem rules_of_longForm {short long : Opcode} (h : short.LongForm long)
    (hs : short.layout = .fixed 1) (hl : long.layout = .fixed 4) :
    rules.get? short.name = some .jump ∧ rules.get? long.name = some .jump := by
  have hshort := List.all_eq_true.mp longForms_jump short
    (List.mem_filter.mpr ⟨h.short_mem, decide_eq_true hs⟩)
  have hlong := List.all_eq_true.mp hshort long
    (List.mem_filter.mpr ⟨h.long_mem, decide_eq_true hl⟩)
  simpa [h.name_eq] using hlong

/-! ## Try blocks -/

/-- What is told about one block of a try: that there is none just if its offset is zero, and
otherwise where it starts. -/
def TellsBlock (kind : String) (address offset : Int) (t : Text) : Prop :=
  (t = Text.ofString ("no " ++ kind ++ " block") ↔ offset = 0) ∧
    (offset ≠ 0 → t = Text.ofString (kind ++ " " ++ toString (address + offset)))

def BlockWritable (address offset : Int) : Prop := offset ≠ 0 → Text.Writable (address + offset)

instance (address offset : Int) : Decidable (BlockWritable address offset) :=
  inferInstanceAs (Decidable (_ → _))

theorem start_ne_absent {kind : String} (h : kind.toList.head? ≠ some 'n') (place : String) :
    kind ++ " " ++ place ≠ "no " ++ kind ++ " block" := by
  intro he
  have hl := congrArg String.toList he
  simp only [String.toList_append] at hl
  cases hk : kind.toList with
  | nil =>
    rw [hk] at hl
    exact absurd (List.cons.inj hl).1 (by decide)
  | cons c cs =>
    rw [hk] at hl h
    exact h (congrArg some (List.cons.inj hl).1)

theorem block_of_writable {kind : String} (hk : kind.toList.head? ≠ some 'n')
    {address offset : Int} (h : BlockWritable address offset) :
    ∃ t, block kind address offset = .ok t ∧ TellsBlock kind address offset t := by
  unfold block
  by_cases ho : offset = 0
  · rw [if_pos ho]
    refine ⟨_, rfl, ⟨fun _ => ho, fun _ => ?_⟩, fun hn => absurd ho hn⟩
    simp only [Text.ofString_append]
  · rw [if_neg ho, number_of_writable (h ho)]
    have ht : Text.ofString kind ++ Text.ofString " " ++
        Text.ofString (toString (address + offset)) =
          Text.ofString (kind ++ " " ++ toString (address + offset)) := by
      simp only [Text.ofString_append]
    refine ⟨_, rfl, ⟨fun he => ?_, fun hz => absurd hz ho⟩, fun _ => ht⟩
    exact absurd (Text.ofString_inj (ht.symm.trans he)) (start_ne_absent hk _)

theorem block_of_not_writable (kind : String) {address offset : Int}
    (h : ¬BlockWritable address offset) : block kind address offset = .error .tooManyDigits := by
  obtain ⟨ho, hw⟩ := Classical.not_imp.mp h
  rw [block, if_neg ho, number_of_not_writable hw]
  rfl

theorem blocks_of_writable {address handler cleanup : Int}
    (hh : BlockWritable address handler) (hc : BlockWritable address cleanup) :
    ∃ t u, TellsBlock "catch" address handler t ∧ TellsBlock "finally" address cleanup u ∧
      blocks address handler cleanup = .ok (t ++ ", " ++ u) := by
  have hcatch : "catch".toList.head? ≠ some 'n' := by decide
  have hfinally : "finally".toList.head? ≠ some 'n' := by decide
  obtain ⟨t, ht, htells⟩ := block_of_writable hcatch hh
  obtain ⟨u, hu, hutells⟩ := block_of_writable hfinally hc
  refine ⟨t, u, htells, hutells, ?_⟩
  rw [blocks, ht, hu]
  rfl

theorem blocks_of_not_writable {address handler cleanup : Int}
    (h : ¬(BlockWritable address handler ∧ BlockWritable address cleanup)) :
    blocks address handler cleanup = .error .tooManyDigits := by
  have hcatch : "catch".toList.head? ≠ some 'n' := by decide
  unfold blocks
  by_cases hh : BlockWritable address handler
  · obtain ⟨t, ht, -⟩ := block_of_writable hcatch hh
    rw [ht, block_of_not_writable "finally" fun hc => h ⟨hh, hc⟩]
    rfl
  · rw [block_of_not_writable "catch" hh]
    rfl

/-- The first half of the operand leads to the handler, the second to the cleanup. -/
theorem ofTry_append {first second : Bytes} (h : first.length = second.length) (address : Int) :
    ofTry address (first ++ second) =
      blocks address (Bytes.intLE first) (Bytes.intLE second) := by
  have hhalf : (first ++ second).length / 2 = first.length := by
    rw [List.length_append]
    omega
  have hsecond : ((first ++ second).drop first.length).take first.length = second := by
    rw [List.drop_left, h, List.take_length]
  simp only [ofTry, hhalf, hsecond, List.take_left]

theorem rules_try :
    rules.get? "TRY" = some .tryBlock ∧ rules.get? "TRY_L" = some .tryBlock := by
  decide

theorem make_try {name : String} (h : rules.get? name = some .tryBlock) {width : Nat}
    (hw : 0 < width) {handler cleanup : Int} (hh : Bytes.SignedByte handler)
    (hc : Bytes.SignedByte cleanup) (context : Context) (address : Int) :
    make context name address (Bytes.ofIntLE width handler ++ Bytes.ofIntLE width cleanup) =
      blocks address handler cleanup := by
  have hlength : (Bytes.ofIntLE width handler).length = (Bytes.ofIntLE width cleanup).length := by
    rw [Bytes.length_ofIntLE, Bytes.length_ofIntLE]
  rw [make_of_rule h, Rule.comment, ofTry_append hlength,
    Bytes.intLE_ofIntLE_of_signedByte hw hh, Bytes.intLE_ofIntLE_of_signedByte hw hc]

/-- Signed operands are read back exactly. An integer is told in decimal at every width. A jump with
an operand of one byte and its long form get one comment, with the target and the offset, and so do
the short and the long try. Where a target has too many digits, neither form has a comment. -/
theorem signed_operands_read_back (context : Context) :
    (∀ k ∈ [1, 2, 4, 8, 16, 32], ∀ v : Int, -2 ^ (8 * k - 1) ≤ v → v < 2 ^ (8 * k - 1) →
      ∀ address : Int,
        make context ("PUSHINT" ++ toString (8 * k)) address (Bytes.ofIntLE k v) =
          .ok (Text.ofString (toString v))) ∧
    (∀ short long : Opcode, short.LongForm long → short.layout = .fixed 1 →
      long.layout = .fixed 4 → ∀ address offset : Int, Bytes.SignedByte offset →
        make context short.name address (Bytes.ofIntLE 1 offset) =
            make context long.name address (Bytes.ofIntLE 4 offset) ∧
          make context short.name address (Bytes.ofIntLE 1 offset) =
            if Text.Writable (address + offset) then
              .ok (Text.ofString ("pos: " ++ toString (address + offset) ++ ", offset: " ++
                toString offset))
            else .error .tooManyDigits) ∧
    (∀ address handler cleanup : Int, Bytes.SignedByte handler → Bytes.SignedByte cleanup →
        make context "TRY" address (Bytes.ofIntLE 1 handler ++ Bytes.ofIntLE 1 cleanup) =
            make context "TRY_L" address (Bytes.ofIntLE 4 handler ++ Bytes.ofIntLE 4 cleanup) ∧
          (BlockWritable address handler ∧ BlockWritable address cleanup →
            ∃ t u, TellsBlock "catch" address handler t ∧ TellsBlock "finally" address cleanup u ∧
              make context "TRY" address (Bytes.ofIntLE 1 handler ++ Bytes.ofIntLE 1 cleanup) =
                .ok (t ++ ", " ++ u)) ∧
          (¬(BlockWritable address handler ∧ BlockWritable address cleanup) →
            make context "TRY" address (Bytes.ofIntLE 1 handler ++ Bytes.ofIntLE 1 cleanup) =
              .error .tooManyDigits)) := by
  refine ⟨fun k hk v hl hu address => make_pushInt hk hl hu context address, ?_, ?_⟩
  · intro short long hform hs hl address offset ho
    obtain ⟨hshort, hlong⟩ := rules_of_longForm hform hs hl
    have hone := make_jump hshort ⟨Nat.one_pos, by decide⟩ ho context address
    have hfour := make_jump hlong ⟨Nat.succ_pos 3, by decide⟩ ho context address
    exact ⟨hone.trans hfour.symm, hone⟩
  · intro address handler cleanup hh hc
    have hone := make_try rules_try.1 Nat.one_pos hh hc context address
    have hfour := make_try rules_try.2 (Nat.succ_pos 3) hh hc context address
    refine ⟨hone.trans hfour.symm, ?_, ?_⟩
    · rintro ⟨hwh, hwc⟩
      rw [hone]
      exact blocks_of_writable hwh hwc
    · intro hw
      rw [hone]
      exact blocks_of_not_writable hw

theorem signed_operands_read_back_bounds :
    make ⟨[], []⟩ ("PUSHINT" ++ toString (8 * 32)) 0 (Bytes.ofIntLE 32 (-2 ^ 255)) =
        .ok (Text.ofString (toString (-2 ^ 255 : Int))) ∧
      make ⟨[], []⟩ "CALL" 200 [0x80] = .ok (Text.ofString "pos: 72, offset: -128") ∧
      make ⟨[], []⟩ "CALL_L" 200 [0x80, 0xFF, 0xFF, 0xFF] =
        .ok (Text.ofString "pos: 72, offset: -128") ∧
      ∃ t u, TellsBlock "catch" 200 (-128) t ∧ TellsBlock "finally" 200 0 u ∧
        make ⟨[], []⟩ "TRY" 200 [0x80, 0x00] = .ok (t ++ ", " ++ u) := by
  obtain ⟨hint, hjump, htry⟩ := signed_operands_read_back ⟨[], []⟩
  have hcall : Opcode.LongForm ⟨0x34, "CALL", .fixed 1⟩ ⟨0x35, "CALL_L", .fixed 4⟩ :=
    ⟨by decide, by decide, by decide⟩
  have hsum : Bytes.intLE [0x48] = 200 + -128 := by decide
  have hw : Text.Writable (200 + -128) := hsum ▸ writable_intLE (by decide)
  have hone : Bytes.ofIntLE 1 (-128) = [0x80] := by decide
  have hzero : Bytes.ofIntLE 1 0 = [0x00] := by decide
  have hfour : Bytes.ofIntLE 4 (-128) = [0x80, 0xFF, 0xFF, 0xFF] := by decide
  have htext : "pos: " ++ toString (200 + -128 : Int) ++ ", offset: " ++ toString (-128 : Int) =
      "pos: 72, offset: -128" := by decide
  obtain ⟨hsame, hshort⟩ := hjump _ _ hcall rfl rfl 200 (-128) (by decide)
  rw [if_pos hw, htext, hone] at hshort
  rw [hfour, hone] at hsame
  obtain ⟨-, hblocks, -⟩ := htry 200 (-128) 0 (by decide) (by decide)
  rw [hone, hzero] at hblocks
  exact ⟨hint 32 (by decide) (-2 ^ 255) (Int.le_refl _) (by decide) 0, hshort,
    hsame.symm.trans hshort, hblocks ⟨fun _ => hw, fun h => absurd rfl h⟩⟩

/-- The target has one digit more than can be written. -/
theorem jump_target_too_long :
    make ⟨[], []⟩ "JMP" (10 ^ Text.digitLimit - 1) (Bytes.ofIntLE 1 1) = .error .tooManyDigits ∧
      make ⟨[], []⟩ "JMP" (10 ^ Text.digitLimit - 1) (Bytes.ofIntLE 1 1) ≠
        .ok (Text.ofString ("pos: " ++ toString (10 ^ Text.digitLimit - 1 + 1 : Int) ++
          ", offset: " ++ toString (1 : Int))) := by
  have hw : ¬Text.Writable (10 ^ Text.digitLimit - 1 + 1) := by
    unfold Text.Writable
    generalize Text.digitLimit = limit
    rw [sub_add_cancel, Int.natAbs_pow]
    exact Nat.lt_irrefl _
  have hrule : rules.get? "JMP" = some .jump := by decide
  have hbyte : Bytes.SignedByte 1 := by decide
  have hjump := make_jump hrule ⟨Nat.one_pos, by decide⟩ hbyte ⟨[], []⟩ (10 ^ Text.digitLimit - 1)
  rw [if_neg hw] at hjump
  refine ⟨hjump, ?_⟩
  rw [hjump]
  rintro ⟨⟩

end Comment

end NeoListing

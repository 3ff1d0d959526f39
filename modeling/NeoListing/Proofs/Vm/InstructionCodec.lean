import Mathlib
import NeoListing.Vm.Instruction

/-! # Reading and writing one instruction

Decoding at an opcode byte accepts exactly the encodings of well-formed instructions. A
fault is either an unknown byte, which no further input mends, or a missing part, which
further input always completes.
-/

namespace NeoListing

namespace Layout

def Fits : Layout → Nat → Prop
  | .fixed size, n => n = size
  | .counted width, n => n < 256 ^ width

instance : (layout : Layout) → (n : Nat) → Decidable (layout.Fits n)
  | .fixed size, n => inferInstanceAs (Decidable (n = size))
  | .counted width, n => inferInstanceAs (Decidable (n < 256 ^ width))

def announced : Layout → Bytes → Nat
  | .fixed size, _ => size
  | .counted width, rest => Bytes.natLE (rest.take width)

theorem fits_announced {layout : Layout} {rest : Bytes} (h : layout.lengthWidth ≤ rest.length) :
    layout.Fits (layout.announced rest) := by
  cases layout with
  | fixed size => rfl
  | counted width =>
    have hl : (rest.take width).length = width := List.length_take_of_le h
    have hn := Bytes.natLE_lt (rest.take width)
    rwa [hl] at hn

theorem ofNatLE_announced {layout : Layout} {rest : Bytes}
    (h : layout.lengthWidth ≤ rest.length) :
    Bytes.ofNatLE layout.lengthWidth (layout.announced rest) = rest.take layout.lengthWidth := by
  cases layout with
  | fixed size => rfl
  | counted width =>
    have hl : (rest.take width).length = width := List.length_take_of_le h
    have hn := Bytes.ofNatLE_natLE (rest.take width)
    rwa [hl] at hn

theorem announced_ofNatLE {layout : Layout} {n : Nat} (h : layout.Fits n) (more : Bytes) :
    layout.announced (Bytes.ofNatLE layout.lengthWidth n ++ more) = n := by
  cases layout with
  | fixed size => exact h.symm
  | counted width =>
    have ht : (Bytes.ofNatLE width n ++ more).take width = Bytes.ofNatLE width n :=
      List.take_left' (Bytes.length_ofNatLE width n)
    change Bytes.natLE ((Bytes.ofNatLE width n ++ more).take width) = n
    rw [ht]
    exact Bytes.natLE_ofNatLE h

end Layout

namespace Opcode

theorem table_codes_sorted : (table.map code).IsChain (· < ·) := by
  decide +kernel

theorem table_codes_nodup : (table.map code).Nodup := by
  have hp : (table.map code).Pairwise (· < ·) := List.isChain_iff_pairwise.mp table_codes_sorted
  exact hp.imp (fun h => UInt8.ne_of_lt h)

theorem ofByte?_code {op : Opcode} (h : op ∈ table) : ofByte? op.code = some op := by
  cases hf : ofByte? op.code with
  | none =>
    have hn := List.find?_eq_none.mp hf op h
    simp at hn
  | some op' =>
    have hc : op'.code = op.code := code_of_ofByte? hf
    rw [List.inj_on_of_nodup_map table_codes_nodup (mem_of_ofByte? hf) h hc]

theorem ret_mem_table : ret ∈ table := by
  simp [table, flow]

theorem ofByte?_eq_some_iff {b : UInt8} {op : Opcode} :
    ofByte? b = some op ↔ op ∈ table ∧ op.code = b := by
  constructor
  · intro h
    exact ⟨mem_of_ofByte? h, code_of_ofByte? h⟩
  · rintro ⟨hm, rfl⟩
    exact ofByte?_code hm

end Opcode

namespace Instruction

def WellFormed (i : Instruction) : Prop :=
  i.opcode ∈ Opcode.table ∧ i.opcode.layout.Fits i.operand.length

instance (i : Instruction) : Decidable i.WellFormed :=
  inferInstanceAs (Decidable (_ ∧ _))

@[simp] theorem length_encode (i : Instruction) : i.encode.length = i.size := by
  simp only [encode, size, List.length_cons, List.length_append, Bytes.length_ofNatLE]
  omega

theorem size_pos (i : Instruction) : 0 < i.size := by
  unfold size
  omega

theorem ofByte?_opcode {i : Instruction} (h : i.WellFormed) :
    Opcode.ofByte? i.opcode.code = some i.opcode := Opcode.ofByte?_code h.1

theorem finalReturn_wellFormed (address : Nat) : (finalReturn address).WellFormed :=
  ⟨Opcode.ret_mem_table, rfl⟩

theorem takeOperand_eq_ok_iff {address size : Nat} {opcode : Opcode} {bytes : Bytes}
    {i : Instruction} :
    takeOperand address opcode size bytes = .ok i ↔
      size ≤ bytes.length ∧ i = ⟨address, opcode, bytes.take size⟩ := by
  simp only [takeOperand, List.length_take]
  by_cases h : min size bytes.length < size
  · rw [if_pos h]
    constructor
    · intro he
      cases he
    · rintro ⟨hs, -⟩
      omega
  · rw [if_neg h]
    constructor
    · intro he
      cases he
      exact ⟨by omega, rfl⟩
    · rintro ⟨-, rfl⟩
      rfl

theorem takeOperand_eq_error_iff {address size : Nat} {opcode : Opcode} {bytes : Bytes}
    {e : DecodeError} :
    takeOperand address opcode size bytes = .error e ↔
      bytes.length < size ∧ e = .operandPastEnd address opcode size bytes.length := by
  simp only [takeOperand, List.length_take]
  by_cases h : min size bytes.length < size
  · rw [if_pos h]
    constructor
    · intro he
      cases he
      exact ⟨by omega, rfl⟩
    · rintro ⟨-, rfl⟩
      rfl
  · rw [if_neg h]
    constructor
    · intro he
      cases he
    · rintro ⟨hs, -⟩
      omega

/-- For a known byte both layouts are read alike: a length of `lengthWidth` bytes, which may
be none, and then the operand that it announces. -/
theorem decode_of_ofByte? {b : UInt8} {opcode : Opcode} (h : Opcode.ofByte? b = some opcode)
    (address : Nat) (rest : Bytes) :
    decode address b rest =
      if rest.length < opcode.layout.lengthWidth then .error (.lengthPastEnd address opcode)
      else takeOperand address opcode (opcode.layout.announced rest)
        (rest.drop opcode.layout.lengthWidth) := by
  simp only [decode, h]
  cases opcode.layout with
  | fixed size => simp [Layout.lengthWidth, Layout.announced]
  | counted width =>
    have hl : (rest.take width).length < width ↔ rest.length < width := by
      rw [List.length_take]
      omega
    exact if_congr hl rfl rfl

/-- Decoding accepts exactly the encodings of well-formed instructions, whatever follows. -/
theorem decode_eq_ok_iff {address : Nat} {b : UInt8} {rest : Bytes} {i : Instruction} :
    decode address b rest = .ok i ↔
      i.address = address ∧ i.WellFormed ∧ i.encode <+: b :: rest := by
  constructor
  · intro h
    cases ho : Opcode.ofByte? b with
    | none => simp [decode, ho] at h
    | some opcode =>
      rw [decode_of_ofByte? ho] at h
      by_cases hw : rest.length < opcode.layout.lengthWidth
      · rw [if_pos hw] at h
        cases h
      · rw [if_neg hw] at h
        obtain ⟨hn, rfl⟩ := takeOperand_eq_ok_iff.mp h
        have hw : opcode.layout.lengthWidth ≤ rest.length := by omega
        obtain ⟨hm, rfl⟩ := Opcode.ofByte?_eq_some_iff.mp ho
        have hl := List.length_take_of_le hn
        refine ⟨rfl, ⟨hm, ?_⟩, ?_⟩
        · rw [hl]
          exact Layout.fits_announced hw
        · simp only [encode, hl, Layout.ofNatLE_announced hw]
          rw [List.cons_prefix_cons]
          refine ⟨rfl, ?_⟩
          conv_rhs => rw [← List.take_append_drop opcode.layout.lengthWidth rest]
          rw [List.prefix_append_right_inj]
          exact List.take_prefix _ _
  · rintro ⟨rfl, ⟨hm, hf⟩, hp⟩
    rw [encode, List.cons_prefix_cons] at hp
    obtain ⟨rfl, more, rfl⟩ := hp
    rw [decode_of_ofByte? (Opcode.ofByte?_code hm), List.append_assoc,
      Layout.announced_ofNatLE hf, List.drop_left' (Bytes.length_ofNatLE _ _), if_neg ?_]
    · rw [takeOperand_eq_ok_iff, List.take_left]
      exact ⟨by simp, rfl⟩
    · simp only [List.length_append, Bytes.length_ofNatLE]
      omega

/-- The three faults, each with the exact condition under which it arises. -/
theorem decode_eq_error_iff {address : Nat} {b : UInt8} {rest : Bytes} {e : DecodeError} :
    decode address b rest = .error e ↔
      (Opcode.ofByte? b = none ∧ e = .unknownOpcode address b) ∨
      ∃ opcode, Opcode.ofByte? b = some opcode ∧
        ((rest.length < opcode.layout.lengthWidth ∧ e = .lengthPastEnd address opcode) ∨
          (opcode.layout.lengthWidth ≤ rest.length ∧
            rest.length - opcode.layout.lengthWidth < opcode.layout.announced rest ∧
            e = .operandPastEnd address opcode (opcode.layout.announced rest)
              (rest.length - opcode.layout.lengthWidth))) := by
  cases ho : Opcode.ofByte? b with
  | none =>
    simp only [decode, ho, Except.error.injEq, true_and, reduceCtorEq, false_and, exists_false,
      or_false]
    exact eq_comm
  | some opcode =>
    rw [decode_of_ofByte? ho]
    simp only [reduceCtorEq, false_and, false_or, Option.some.injEq, exists_eq_left']
    by_cases hw : rest.length < opcode.layout.lengthWidth
    · rw [if_pos hw]
      simp only [Except.error.injEq, hw, true_and, Nat.not_le.mpr hw, false_and, or_false]
      exact eq_comm
    · rw [if_neg hw, takeOperand_eq_error_iff, List.length_drop]
      simp only [hw, false_and, false_or, Nat.not_lt.mp hw, true_and]

theorem address_of_decode_eq_error {address : Nat} {b : UInt8} {rest : Bytes} {e : DecodeError}
    (h : decode address b rest = .error e) : e.address = address := by
  rcases decode_eq_error_iff.mp h with ⟨-, rfl⟩ | ⟨opcode, -, ⟨-, rfl⟩ | ⟨-, -, rfl⟩⟩ <;> rfl

/-- An instruction of a known opcode that breaks off can be completed: zeros that fill up the
length, and then as many as the length announces. -/
theorem exists_completion {address : Nat} {b : UInt8} {rest : Bytes} {opcode : Opcode}
    {e : DecodeError} (ho : Opcode.ofByte? b = some opcode)
    (h : decode address b rest = .error e) :
    ∃ t ≠ [], ∃ i : Instruction, i.address = address ∧ i.opcode = opcode ∧ i.WellFormed ∧
      i.encode = b :: (rest ++ t) := by
  obtain ⟨hm, rfl⟩ := Opcode.ofByte?_eq_some_iff.mp ho
  rcases decode_eq_error_iff.mp h with ⟨hn, -⟩ | ⟨opcode', ho', hc⟩
  · rw [ho] at hn
    cases hn
  · rw [ho] at ho'
    cases ho'
    rcases hc with ⟨hw, -⟩ | ⟨hw, hn, -⟩
    · let zeros : Bytes := List.replicate (opcode.layout.lengthWidth - rest.length) 0
      have hl : (rest ++ zeros).length = opcode.layout.lengthWidth := by
        simp only [zeros, List.length_append, List.length_replicate]
        omega
      have hg : opcode.layout.lengthWidth ≤ (rest ++ zeros).length := Nat.le_of_eq hl.symm
      let operand : Bytes := List.replicate (opcode.layout.announced (rest ++ zeros)) 0
      have hz : zeros ≠ [] := by
        apply List.ne_nil_of_length_pos
        simp only [zeros, List.length_replicate]
        omega
      refine ⟨zeros ++ operand, List.append_ne_nil_of_left_ne_nil hz _,
        ⟨address, opcode, operand⟩, rfl, rfl, ⟨hm, ?_⟩, ?_⟩
      · simp only [operand, List.length_replicate]
        exact Layout.fits_announced hg
      · simp only [encode, operand, List.length_replicate, Layout.ofNatLE_announced hg]
        rw [List.take_of_length_le (Nat.le_of_eq hl), List.append_assoc]
    · let body := rest.drop opcode.layout.lengthWidth
      let zeros : Bytes := List.replicate (opcode.layout.announced rest - body.length) 0
      have hb : body.length = rest.length - opcode.layout.lengthWidth := List.length_drop
      have hl : (body ++ zeros).length = opcode.layout.announced rest := by
        simp only [zeros, List.length_append, List.length_replicate]
        omega
      have hz : zeros ≠ [] := by
        apply List.ne_nil_of_length_pos
        simp only [zeros, List.length_replicate]
        omega
      refine ⟨zeros, hz, ⟨address, opcode, body ++ zeros⟩, rfl, rfl, ⟨hm, ?_⟩, ?_⟩
      · rw [hl]
        exact Layout.fits_announced hw
      · simp only [encode, hl, Layout.ofNatLE_announced hw, body]
        rw [← List.append_assoc, List.take_append_drop]

end Instruction

end NeoListing

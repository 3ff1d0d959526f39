import NeoListing.Proofs.Vm.ScriptCodec

/-! # Faults of decoding

A fault stands at the first byte that no instruction covers. An unknown opcode is final:
whatever follows the script, decoding stops there in the same way. An instruction that runs
past the end is not: some continuation of the script completes it.
-/

namespace NeoListing.Script

theorem mem_close {is : List Instruction} {i : Instruction} (h : i ∈ is) (length : Nat) :
    i ∈ close length is := by
  unfold close
  split
  · exact h
  · exact List.mem_append_left _ h

/-- An unknown opcode behind a row stops the decoding of every continuation. -/
theorem trace_unknown {is : List Instruction} (hr : Row 0 is) {b : UInt8}
    (hb : Opcode.ofByte? b = none) (rest : Bytes) :
    trace (assemble is ++ b :: rest) =
      ⟨is, some (.unknownOpcode (assemble is).length b)⟩ := by
  apply trace_of_stopped
  apply decodeFrom_eq_stopped_iff.mpr
  refine ⟨hr, b, rest, rfl, ?_⟩
  rw [Nat.zero_add]
  exact Instruction.decode_eq_error_iff.mpr (.inl ⟨hb, rfl⟩)

/-- An instruction that runs past the end is completed by some continuation. -/
theorem disassemble_completion {is : List Instruction} (hr : Row 0 is) {b : UInt8}
    {rest : Bytes} {opcode : Opcode} {e : DecodeError} (ho : Opcode.ofByte? b = some opcode)
    (h : Instruction.decode (assemble is).length b rest = .error e) :
    ∃ t all i, disassemble (assemble is ++ b :: rest ++ t) = .ok all ∧ i ∈ all ∧
      i.address = (assemble is).length ∧ i.opcode = opcode ∧
      (assemble is ++ b :: rest).length < i.address + i.size := by
  obtain ⟨t, ht, i, ha, hi, hw, he⟩ := Instruction.exists_completion ho h
  have hri : Row 0 (is ++ [i]) := by
    rw [row_append, Nat.zero_add]
    exact ⟨hr, ha, hw, trivial⟩
  have hs : assemble (is ++ [i]) = assemble is ++ b :: rest ++ t := by
    rw [assemble_append, assemble_cons, assemble_nil, List.append_nil, he, List.append_assoc]
    rfl
  refine ⟨t, _, i, disassemble_eq_ok_iff.mpr ⟨is ++ [i], hri, hs, rfl⟩, mem_close (by simp) _,
    ha, hi, ?_⟩
  have hl := i.length_encode
  have hp := List.length_pos_iff.mpr ht
  simp only [he, List.length_cons, List.length_append] at hl
  simp only [List.length_append, List.length_cons]
  omega

/-- Faults are exact. A fault lies within the script; the instructions before it tile the bytes
up to it, and they are what these bytes alone disassemble to. Either the byte there is unknown,
and every continuation stops there in the same way, or it is known and its length or operand
runs past the end, and some continuation completes that instruction. -/
theorem trace_stopped_exact {s : Bytes} {is : List Instruction} {e : DecodeError}
    (h : trace s = ⟨is, some e⟩) :
    e.address < s.length ∧
    (∀ i ∈ is, i.address + i.size ≤ e.address) ∧
    (∀ i ∈ is.head?, i.address = 0) ∧
    is.IsChain (fun i j => j.address = i.address + i.size) ∧
    assemble is = s.take e.address ∧
    (∃ all, disassemble (s.take e.address) = .ok all ∧ body e.address all = is) ∧
    ((∃ b, s[e.address]? = some b ∧ Opcode.ofByte? b = none ∧
        e = .unknownOpcode e.address b ∧ ∀ t, trace (s ++ t) = ⟨is, some e⟩) ∨
      ∃ opcode : Opcode, s[e.address]? = some opcode.code ∧
        Opcode.ofByte? opcode.code = some opcode ∧
        ((e = .lengthPastEnd e.address opcode ∧
            s.length < e.address + 1 + opcode.layout.lengthWidth) ∨
          ∃ remaining, e = .operandPastEnd e.address opcode
              (opcode.layout.announced (s.drop (e.address + 1))) remaining ∧
            e.address + 1 + opcode.layout.lengthWidth + remaining = s.length ∧
            remaining < opcode.layout.announced (s.drop (e.address + 1))) ∧
        ∃ t all i, disassemble (s ++ t) = .ok all ∧ i ∈ all ∧ i.address = e.address ∧
          i.opcode = opcode ∧ s.length < i.address + i.size) := by
  obtain ⟨hr, b, rest, rfl, hd⟩ := decodeFrom_eq_stopped_iff.mp (trace_eq_stopped_iff.mp h)
  rw [Nat.zero_add] at hd
  have ha : e.address = (assemble is).length := Instruction.address_of_decode_eq_error hd
  have ht : (assemble is ++ b :: rest).take (assemble is).length = assemble is := List.take_left
  have hb : (assemble is ++ b :: rest)[(assemble is).length]? = some b := by simp
  have hrest : (assemble is ++ b :: rest).drop ((assemble is).length + 1) = rest := by simp
  have hl : (assemble is ++ b :: rest).length = (assemble is).length + (rest.length + 1) := by simp
  rw [ha, ht, hb, hrest]
  refine ⟨by omega, ?_, hr.head_address, hr.isChain, rfl, ?_, ?_⟩
  · intro i hi
    have he := hr.end_le hi
    omega
  · exact ⟨_, disassemble_eq_ok_iff.mpr ⟨is, hr, rfl, rfl⟩, body_close hr⟩
  · rcases Instruction.decode_eq_error_iff.mp hd with ⟨hu, rfl⟩ | ⟨opcode, ho, hc⟩
    · refine .inl ⟨b, rfl, hu, rfl, ?_⟩
      intro t
      rw [List.append_assoc]
      exact trace_unknown hr hu (rest ++ t)
    · have hcode : opcode.code = b := Opcode.code_of_ofByte? ho
      refine .inr ⟨opcode, by rw [hcode], by rw [hcode]; exact ho, ?_,
        disassemble_completion hr ho hd⟩
      rcases hc with ⟨hw, rfl⟩ | ⟨hw, hn, rfl⟩
      · exact .inl ⟨rfl, by omega⟩
      · exact .inr ⟨_, rfl, by omega, hn⟩

theorem trace_stopped_exact_data :
    trace [0x40, 0x0D, 0x05] =
        ⟨[⟨0, .ret, []⟩], some (.lengthPastEnd 1 (.counted 0x0D "PUSHDATA2" 2))⟩ ∧
      ∃ all, disassemble [0x40] = .ok all ∧ body 1 all = [⟨0, .ret, []⟩] := by
  have h : trace [0x40, 0x0D, 0x05] =
      ⟨[⟨0, .ret, []⟩], some (.lengthPastEnd 1 (.counted 0x0D "PUSHDATA2" 2))⟩ := by cbv
  exact ⟨h, (trace_stopped_exact h).2.2.2.2.2.1⟩

end NeoListing.Script

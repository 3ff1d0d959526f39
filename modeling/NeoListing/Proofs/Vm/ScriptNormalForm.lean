import NeoListing.Proofs.Vm.ScriptCodec

/-! # Scripts up to the final return

Two scripts disassemble alike exactly when they agree once the return that acts at the end of
each is written out.
-/

namespace NeoListing.Script

def normalize (s : Bytes) : Bytes :=
  if endsInReturn (decodeFrom 0 s).instructions then s else s ++ [Opcode.ret.code]

theorem normalize_assemble {is : List Instruction} (h : Row 0 is) :
    normalize (assemble is) = assemble (close (assemble is).length is) := by
  have hd := decodeFrom_eq_complete_iff.mpr ⟨h, rfl⟩
  unfold normalize close
  rw [hd]
  split
  · rfl
  · rw [assemble_append]
    rfl

theorem row_close {is : List Instruction} (h : Row 0 is) :
    Row 0 (close (assemble is).length is) := by
  unfold close
  split
  · exact h
  · rw [row_append, Nat.zero_add]
    exact ⟨h, row_finalReturn _⟩

theorem endsInReturn_close (length : Nat) (is : List Instruction) :
    endsInReturn (close length is) = true := by
  unfold close
  split
  · assumption
  · simp [endsInReturn, Instruction.finalReturn]

theorem close_close (length length' : Nat) (is : List Instruction) :
    close length' (close length is) = close length is := by
  rw [close, if_pos (endsInReturn_close length is)]

/-- All that is listed for a script, the added return included, is a row that assembles to
its normal form. -/
theorem row_of_disassemble {s : Bytes} {all : List Instruction} (h : disassemble s = .ok all) :
    Row 0 all ∧ assemble all = normalize s ∧ all ≠ [] := by
  obtain ⟨is, hr, rfl, rfl⟩ := disassemble_eq_ok_iff.mp h
  refine ⟨row_close hr, (normalize_assemble hr).symm, ?_⟩
  intro hn
  have he := endsInReturn_close (assemble is).length is
  rw [hn] at he
  cases he

theorem disassemble_normalize {s : Bytes} {all : List Instruction}
    (h : disassemble s = .ok all) : disassemble (normalize s) = .ok all := by
  obtain ⟨hr, ha, -⟩ := row_of_disassemble h
  obtain ⟨is, -, -, rfl⟩ := disassemble_eq_ok_iff.mp h
  exact disassemble_eq_ok_iff.mpr ⟨_, hr, ha, (close_close _ _ is).symm⟩

theorem length_normalize_le (s : Bytes) : (normalize s).length ≤ s.length + 1 := by
  unfold normalize
  split <;> simp

theorem address_le_of_disassemble {s : Bytes} {is : List Instruction}
    (h : disassemble s = .ok is) : ∀ i ∈ is, i.address ≤ s.length := by
  obtain ⟨hr, ha, -⟩ := row_of_disassemble h
  have hlen : (assemble is).length ≤ s.length + 1 := ha ▸ length_normalize_le s
  intro i hi
  have hlt := hr.address_lt hi
  omega

theorem address_lt_of_disassemble {s : Bytes} {is : List Instruction}
    (h : disassemble s = .ok is) {limit : Nat} (hs : s.length < limit) :
    ∀ i ∈ is, i.address < limit :=
  fun i hi => Nat.lt_of_le_of_lt (address_le_of_disassemble h i hi) hs

/-- Rows from one address that agree in opcodes and operands agree in all. -/
theorem Row.eq_of_forall₂ {address : Nat} {is js : List Instruction} (hi : Row address is)
    (hj : Row address js)
    (h : List.Forall₂ (fun i j => i.opcode = j.opcode ∧ i.operand = j.operand) is js) :
    is = js := by
  induction h generalizing address with
  | nil => rfl
  | @cons i j is js hij _ ih =>
    obtain ⟨hai, -, hri⟩ := hi
    obtain ⟨haj, -, hrj⟩ := hj
    obtain rfl : i = j := by
      cases i
      cases j
      simp_all
    rw [ih hri hrj]

end NeoListing.Script

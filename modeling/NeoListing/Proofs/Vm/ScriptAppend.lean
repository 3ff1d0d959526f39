import NeoListing.Proofs.Vm.ScriptCodec

/-! # One script behind another

What decoding yields does not depend on where a script stands, but for the addresses. So bytes
behind a script that decodes are read as if they stood alone, moved by its length, and whether a
return is added at the end is up to them.
-/

namespace NeoListing

def Instruction.shift (n : Nat) (i : Instruction) : Instruction :=
  ⟨i.address + n, i.opcode, i.operand⟩

@[simp] theorem Instruction.size_shift (n : Nat) (i : Instruction) :
    (i.shift n).size = i.size := rfl

theorem Instruction.shift_finalReturn (n address : Nat) :
    (finalReturn address).shift n = finalReturn (address + n) := rfl

def DecodeError.shift (n : Nat) : DecodeError → DecodeError
  | .unknownOpcode address code => .unknownOpcode (address + n) code
  | .lengthPastEnd address opcode => .lengthPastEnd (address + n) opcode
  | .operandPastEnd address opcode needed remaining =>
    .operandPastEnd (address + n) opcode needed remaining

theorem DecodeError.address_shift (n : Nat) (e : DecodeError) :
    (e.shift n).address = e.address + n := by
  cases e <;> rfl

theorem Instruction.takeOperand_shift (n address : Nat) (opcode : Opcode) (size : Nat)
    (bytes : Bytes) :
    takeOperand (address + n) opcode size bytes =
      ((takeOperand address opcode size bytes).map (shift n)).mapError (DecodeError.shift n) := by
  unfold takeOperand
  dsimp only
  split <;> rfl

theorem Instruction.decode_shift (n address : Nat) (b : UInt8) (rest : Bytes) :
    decode (address + n) b rest =
      ((decode address b rest).map (shift n)).mapError (DecodeError.shift n) := by
  cases ho : Opcode.ofByte? b with
  | none =>
    simp only [decode, ho]
    rfl
  | some opcode =>
    rw [decode_of_ofByte? ho, decode_of_ofByte? ho, takeOperand_shift]
    split <;> rfl

namespace Script

def Trace.shift (n : Nat) (t : Trace) : Trace :=
  ⟨t.instructions.map (Instruction.shift n), t.stopped.map (DecodeError.shift n)⟩

theorem decodeFrom_shift (n address : Nat) (bytes : Bytes) :
    decodeFrom (address + n) bytes = (decodeFrom address bytes).shift n := by
  fun_induction decodeFrom address bytes with
  | case1 address => exact decodeFrom_nil (address + n)
  | case2 address b rest e h =>
    have hd := Instruction.decode_shift n address b rest
    rw [h] at hd
    exact decodeFrom_error hd
  | case3 address b rest i h tail ih =>
    have hd := Instruction.decode_shift n address b rest
    rw [h] at hd
    have ha : address + n + i.size = address + i.size + n := Nat.add_right_comm address n i.size
    rw [decodeFrom_ok hd, Instruction.size_shift, ha, ih]
    rfl

theorem endsInReturn_append_shift (n : Nat) (is : List Instruction) {js : List Instruction}
    (h : js ≠ []) : endsInReturn (is ++ js.map (Instruction.shift n)) = endsInReturn js := by
  have hm : js.map (Instruction.shift n) ≠ [] := by simpa using h
  unfold endsInReturn
  rw [List.getLast?_append_of_ne_nil is hm, List.getLast?_map]
  cases js.getLast? <;> rfl

/-- Whether a return is added depends on the last instruction only. -/
theorem close_append_shift (n length : Nat) (is : List Instruction) {js : List Instruction}
    (h : js ≠ []) :
    close (length + n) (is ++ js.map (Instruction.shift n)) =
      is ++ (close length js).map (Instruction.shift n) := by
  unfold close
  rw [endsInReturn_append_shift n is h]
  split
  · rfl
  · rw [List.map_append, List.map_singleton, Instruction.shift_finalReturn, List.append_assoc]

/-- A row and then the bytes behind it: the row as it is, and what these bytes alone yield,
moved by the length of the row. -/
theorem decodeFrom_row_append {is : List Instruction} (hr : Row 0 is) (t : Bytes) :
    decodeFrom 0 (assemble is ++ t) =
      ((decodeFrom 0 t).shift (assemble is).length).behind is := by
  rw [decodeFrom_assemble_append hr, decodeFrom_shift]

theorem trace_row_append {is : List Instruction} (hr : Row 0 is) {t : Bytes} (ht : t ≠ []) :
    trace (assemble is ++ t) = ((trace t).shift (assemble is).length).behind is := by
  have hd := decodeFrom_row_append hr t
  rcases hj : decodeFrom 0 t with ⟨js, stopped⟩
  rw [hj] at hd
  cases stopped with
  | some e =>
    rw [trace_of_stopped hj]
    exact trace_of_stopped hd
  | none =>
    obtain ⟨-, ha⟩ := decodeFrom_eq_complete_iff.mp hj
    have hne : js ≠ [] := by
      rintro rfl
      exact ht ha.symm
    have hl : (assemble is ++ t).length = t.length + (assemble is).length := by
      rw [List.length_append, Nat.add_comm]
    have hc := close_append_shift (assemble is).length t.length is hne
    rw [trace_of_complete hj, trace_of_complete hd, hl]
    exact congrArg (fun all => (⟨all, none⟩ : Trace)) hc

/-- Decoding is compositional. Behind a script that decodes, further bytes yield what they yield
alone, moved by the length of the script: the same instructions with the return that may be added,
and the same fault, if there is one. -/
theorem trace_append {s t : Bytes} {all : List Instruction} (h : disassemble s = .ok all)
    (ht : t ≠ []) :
    trace (s ++ t) = ((trace t).shift s.length).behind (body s.length all) ∧
      (trace (s ++ t)).stopped.map DecodeError.address =
        (trace t).stopped.map (fun e => e.address + s.length) := by
  obtain ⟨is, hr, rfl, rfl⟩ := disassemble_eq_ok_iff.mp h
  have htrace := trace_row_append hr ht
  refine ⟨by rw [body_close hr, htrace], ?_⟩
  have haddress : DecodeError.address ∘ DecodeError.shift (assemble is).length =
      fun e => e.address + (assemble is).length := by
    funext e
    exact e.address_shift _
  rw [htrace, Trace.behind, Trace.shift, Option.map_map, haddress]

/-- The return added to the first script is gone, and the fault of the second is three further. -/
theorem trace_append_data :
    disassemble [0x0C, 0x01, 0x40] =
        .ok [⟨0, .counted 0x0C "PUSHDATA1" 1, [0x40]⟩, ⟨3, .ret, []⟩] ∧
      trace [0x0C, 0x01, 0x40, 0x11, 0x0D, 0x05] =
        ⟨[⟨0, .counted 0x0C "PUSHDATA1" 1, [0x40]⟩, ⟨3, .bare 0x11 "PUSH1", []⟩],
          some (.lengthPastEnd 4 (.counted 0x0D "PUSHDATA2" 2))⟩ := by
  have h : disassemble [0x0C, 0x01, 0x40] =
      .ok [⟨0, .counted 0x0C "PUSHDATA1" 1, [0x40]⟩, ⟨3, .ret, []⟩] := by cbv
  have ht : trace [0x11, 0x0D, 0x05] =
      ⟨[⟨0, .bare 0x11 "PUSH1", []⟩], some (.lengthPastEnd 1 (.counted 0x0D "PUSHDATA2" 2))⟩ := by
    cbv
  have ha := (trace_append h (List.cons_ne_nil 0x11 [0x0D, 0x05])).1
  rw [ht] at ha
  exact ⟨h, ha⟩

end Script

end NeoListing

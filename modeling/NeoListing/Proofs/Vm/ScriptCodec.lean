import NeoListing.Proofs.Vm.InstructionCodec

/-! # Reading and writing whole scripts

Decoding and assembling are inverse to each other. A script that decodes is the assembly of
a row of well-formed instructions, each standing where the one before it ends, and every such
row is read back from its assembly. The return added at the end of a listing is no part
of the script.
-/

namespace NeoListing.Script

def Row : Nat → List Instruction → Prop
  | _, [] => True
  | address, i :: rest => i.address = address ∧ i.WellFormed ∧ Row (address + i.size) rest

@[simp] theorem assemble_nil : assemble [] = [] := rfl

@[simp] theorem assemble_cons (i : Instruction) (is : List Instruction) :
    assemble (i :: is) = i.encode ++ assemble is := rfl

theorem assemble_append (is js : List Instruction) :
    assemble (is ++ js) = assemble is ++ assemble js := List.flatMap_append

theorem length_assemble (is : List Instruction) :
    (assemble is).length = (is.map Instruction.size).sum := by
  induction is with
  | nil => rfl
  | cons i is ih => simp [ih]

theorem Row.wellFormed {address : Nat} {is : List Instruction} (h : Row address is) :
    ∀ i ∈ is, i.WellFormed := by
  induction is generalizing address with
  | nil => simp
  | cons i is ih =>
    obtain ⟨-, hi, hr⟩ := h
    intro j hj
    rcases List.mem_cons.mp hj with rfl | hj
    · exact hi
    · exact ih hr j hj

theorem Row.end_le {address : Nat} {is : List Instruction} (h : Row address is)
    {i : Instruction} (hi : i ∈ is) : i.address + i.size ≤ address + (assemble is).length := by
  induction is generalizing address with
  | nil => simp at hi
  | cons j is ih =>
    obtain ⟨hj, -, hr⟩ := h
    simp only [assemble_cons, List.length_append, Instruction.length_encode]
    rcases List.mem_cons.mp hi with rfl | hi
    · omega
    · have hh := ih hr hi
      omega

theorem Row.address_lt {address : Nat} {is : List Instruction} (h : Row address is)
    {i : Instruction} (hi : i ∈ is) : i.address < address + (assemble is).length := by
  have he := h.end_le hi
  have hp := i.size_pos
  omega

theorem row_append {address : Nat} {is js : List Instruction} :
    Row address (is ++ js) ↔ Row address is ∧ Row (address + (assemble is).length) js := by
  induction is generalizing address with
  | nil => simp [Row]
  | cons i is ih =>
    simp only [List.cons_append, Row, ih, assemble_cons, List.length_append,
      Instruction.length_encode, Nat.add_assoc, and_assoc]

theorem row_finalReturn (address : Nat) : Row address [Instruction.finalReturn address] :=
  ⟨rfl, Instruction.finalReturn_wellFormed address, trivial⟩

theorem Row.head_address {address : Nat} {is : List Instruction} (h : Row address is) :
    ∀ i ∈ is.head?, i.address = address := by
  cases is with
  | nil => simp
  | cons i is =>
    intro j hj
    cases hj
    exact h.1

theorem Row.isChain {address : Nat} {is : List Instruction} (h : Row address is) :
    is.IsChain (fun i j => j.address = i.address + i.size) := by
  induction is generalizing address with
  | nil => exact List.IsChain.nil
  | cons i is ih =>
    obtain ⟨rfl, -, hr⟩ := h
    exact List.isChain_cons.mpr ⟨hr.head_address, ih hr⟩

theorem Row.pairwise_address_lt {address : Nat} {is : List Instruction} (h : Row address is) :
    is.Pairwise fun i j => i.address < j.address := by
  rw [← List.pairwise_map (f := Instruction.address) (R := (· < ·)), ← List.isChain_iff_pairwise,
    List.isChain_map]
  refine h.isChain.imp ?_
  intro i j hj
  have hp := i.size_pos
  omega

def Trace.behind (is : List Instruction) (t : Trace) : Trace := ⟨is ++ t.instructions, t.stopped⟩

theorem decodeFrom_nil (address : Nat) : decodeFrom address [] = ⟨[], none⟩ := by
  rw [decodeFrom]

theorem decodeFrom_error {address : Nat} {b : UInt8} {rest : Bytes} {e : DecodeError}
    (h : Instruction.decode address b rest = .error e) :
    decodeFrom address (b :: rest) = ⟨[], some e⟩ := by
  rw [decodeFrom, h]

theorem decodeFrom_ok {address : Nat} {b : UInt8} {rest : Bytes} {i : Instruction}
    (h : Instruction.decode address b rest = .ok i) :
    decodeFrom address (b :: rest) =
      (decodeFrom (address + i.size) (rest.drop (i.size - 1))).behind [i] := by
  rw [decodeFrom, h]
  rfl

/-- One step: the encoding of a well-formed instruction is read off the front. -/
theorem decodeFrom_encode_append {i : Instruction} (h : i.WellFormed) (rest : Bytes) :
    decodeFrom i.address (i.encode ++ rest) =
      (decodeFrom (i.address + i.size) rest).behind [i] := by
  have hd : Instruction.decode i.address i.opcode.code
      (Bytes.ofNatLE i.opcode.layout.lengthWidth i.operand.length ++ i.operand ++ rest) = .ok i :=
    Instruction.decode_eq_ok_iff.mpr ⟨rfl, h, List.prefix_append _ _⟩
  have hs : (Bytes.ofNatLE i.opcode.layout.lengthWidth i.operand.length ++ i.operand).length
      = i.size - 1 := by
    simp only [List.length_append, Bytes.length_ofNatLE, Instruction.size]
    omega
  have hr := decodeFrom_ok hd
  rw [List.drop_left' hs] at hr
  exact hr

/-- A row is read off the front of its assembly, and decoding goes on behind it. -/
theorem decodeFrom_assemble_append {address : Nat} {is : List Instruction}
    (h : Row address is) (rest : Bytes) :
    decodeFrom address (assemble is ++ rest) =
      (decodeFrom (address + (assemble is).length) rest).behind is := by
  induction is generalizing address with
  | nil => rfl
  | cons i is ih =>
    obtain ⟨rfl, hi, hr⟩ := h
    rw [assemble_cons, List.append_assoc, decodeFrom_encode_append hi, ih hr, List.length_append,
      Instruction.length_encode, Nat.add_assoc]
    rfl

/-- What is read is a row, and decoding the bytes behind it yields nothing more. -/
theorem decodeFrom_split (address : Nat) (bytes : Bytes) :
    Row address (decodeFrom address bytes).instructions ∧
    ∃ rest, bytes = assemble (decodeFrom address bytes).instructions ++ rest ∧
      decodeFrom (address + (assemble (decodeFrom address bytes).instructions).length) rest =
        ⟨[], (decodeFrom address bytes).stopped⟩ := by
  fun_induction decodeFrom address bytes with
  | case1 address => exact ⟨trivial, [], rfl, decodeFrom_nil address⟩
  | case2 address b rest e h => exact ⟨trivial, b :: rest, rfl, decodeFrom_error h⟩
  | case3 address b rest i h tail ih =>
    obtain ⟨rfl, hi, hp⟩ := Instruction.decode_eq_ok_iff.mp h
    obtain ⟨hr, more, hm, ht⟩ := ih
    refine ⟨⟨rfl, hi, hr⟩, more, ?_, ?_⟩
    · have hd : (b :: rest).drop i.encode.length = rest.drop (i.size - 1) := by
        rw [Instruction.length_encode]
        obtain ⟨n, hn⟩ := Nat.exists_eq_succ_of_ne_zero (Nat.ne_of_gt i.size_pos)
        rw [hn]
        rfl
      rw [assemble_cons, List.append_assoc, ← hm, ← hd]
      exact (List.prefix_iff_eq_append.mp hp).symm
    · rw [assemble_cons, List.length_append, Instruction.length_encode, ← Nat.add_assoc]
      exact ht

theorem decodeFrom_eq_nil_iff {address : Nat} {rest : Bytes} {stopped : Option DecodeError} :
    decodeFrom address rest = ⟨[], stopped⟩ ↔
      (rest = [] ∧ stopped = none) ∨ ∃ b tail e, rest = b :: tail ∧ stopped = some e ∧
        Instruction.decode address b tail = .error e := by
  cases rest with
  | nil => simp [decodeFrom_nil, eq_comm]
  | cons b tail =>
    cases h : Instruction.decode address b tail with
    | error e =>
      rw [decodeFrom_error h]
      constructor
      · intro he
        cases he
        exact .inr ⟨b, tail, e, rfl, rfl, h⟩
      · rintro (⟨hn, -⟩ | ⟨b', tail', e', hb, rfl, he⟩)
        · cases hn
        · cases hb
          rw [h] at he
          cases he
          rfl
    | ok i =>
      rw [decodeFrom_ok h]
      constructor
      · intro he
        cases he
      · rintro (⟨hn, -⟩ | ⟨b', tail', e', hb, rfl, he⟩)
        · cases hn
        · cases hb
          rw [h] at he
          cases he

theorem decodeFrom_eq_iff {address : Nat} {bytes : Bytes} {is : List Instruction}
    {stopped : Option DecodeError} :
    decodeFrom address bytes = ⟨is, stopped⟩ ↔
      Row address is ∧ ∃ rest, bytes = assemble is ++ rest ∧
        decodeFrom (address + (assemble is).length) rest = ⟨[], stopped⟩ := by
  constructor
  · intro h
    have hs := decodeFrom_split address bytes
    rwa [h] at hs
  · rintro ⟨hr, rest, rfl, ht⟩
    rw [decodeFrom_assemble_append hr, ht]
    simp [Trace.behind]

/-- Decoding covers exactly the assemblies of rows. -/
theorem decodeFrom_eq_complete_iff {address : Nat} {bytes : Bytes} {is : List Instruction} :
    decodeFrom address bytes = ⟨is, none⟩ ↔ Row address is ∧ assemble is = bytes := by
  rw [decodeFrom_eq_iff]
  constructor
  · rintro ⟨hr, rest, rfl, ht⟩
    rcases decodeFrom_eq_nil_iff.mp ht with ⟨rfl, -⟩ | ⟨_, _, _, -, hn, -⟩
    · exact ⟨hr, (List.append_nil _).symm⟩
    · cases hn
  · rintro ⟨hr, rfl⟩
    exact ⟨hr, [], (List.append_nil _).symm, decodeFrom_nil _⟩

/-- Decoding stops behind a row, at an instruction that cannot be read. -/
theorem decodeFrom_eq_stopped_iff {address : Nat} {bytes : Bytes} {is : List Instruction}
    {e : DecodeError} :
    decodeFrom address bytes = ⟨is, some e⟩ ↔
      Row address is ∧ ∃ b rest, bytes = assemble is ++ b :: rest ∧
        Instruction.decode (address + (assemble is).length) b rest = .error e := by
  rw [decodeFrom_eq_iff]
  constructor
  · rintro ⟨hr, rest, rfl, ht⟩
    rcases decodeFrom_eq_nil_iff.mp ht with ⟨-, hn⟩ | ⟨b, tail, e', rfl, he, hd⟩
    · cases hn
    · cases he
      exact ⟨hr, b, tail, rfl, hd⟩
  · rintro ⟨hr, b, rest, rfl, hd⟩
    exact ⟨hr, b :: rest, rfl, decodeFrom_error hd⟩

theorem trace_of_complete {s : Bytes} {is : List Instruction}
    (h : decodeFrom 0 s = ⟨is, none⟩) : trace s = ⟨close s.length is, none⟩ := by
  simp only [trace, h]

theorem trace_of_stopped {s : Bytes} {is : List Instruction} {e : DecodeError}
    (h : decodeFrom 0 s = ⟨is, some e⟩) : trace s = ⟨is, some e⟩ := by
  simp only [trace, h]

theorem trace_eq_stopped_iff {s : Bytes} {is : List Instruction} {e : DecodeError} :
    trace s = ⟨is, some e⟩ ↔ decodeFrom 0 s = ⟨is, some e⟩ := by
  constructor
  · intro h
    rcases hd : decodeFrom 0 s with ⟨is', stopped⟩
    cases stopped with
    | none =>
      rw [trace_of_complete hd] at h
      cases h
    | some e' =>
      rw [trace_of_stopped hd] at h
      exact h
  · exact trace_of_stopped

/-- The scripts that disassemble are the assemblies of rows. -/
theorem disassemble_eq_ok_iff {s : Bytes} {all : List Instruction} :
    disassemble s = .ok all ↔
      ∃ is, Row 0 is ∧ assemble is = s ∧ all = close s.length is := by
  constructor
  · intro h
    rcases hd : decodeFrom 0 s with ⟨is, stopped⟩
    cases stopped with
    | none =>
      obtain ⟨hr, ha⟩ := decodeFrom_eq_complete_iff.mp hd
      simp only [disassemble, trace_of_complete hd, Except.ok.injEq] at h
      exact ⟨is, hr, ha, h.symm⟩
    | some e =>
      simp only [disassemble, trace_of_stopped hd] at h
      cases h
  · rintro ⟨is, hr, ha, rfl⟩
    have hd := decodeFrom_eq_complete_iff.mpr ⟨hr, ha⟩
    simp only [disassemble, trace_of_complete hd]

theorem endsInReturn_iff {is : List Instruction} (h : ∀ i ∈ is, i.WellFormed) :
    endsInReturn is = true ↔ is.getLast?.map Instruction.opcode = some .ret := by
  unfold endsInReturn
  cases hl : is.getLast? with
  | none => simp
  | some i =>
    simp only [beq_iff_eq, Option.map_some, Option.some.injEq]
    constructor
    · intro hc
      have hm := (h i (List.mem_of_getLast? hl)).1
      exact List.inj_on_of_nodup_map Opcode.table_codes_nodup hm Opcode.ret_mem_table hc
    · intro ho
      rw [ho]

/-- The final return is added behind a row unless its last opcode is one. -/
theorem close_eq {is : List Instruction} (h : ∀ i ∈ is, i.WellFormed) (length : Nat) :
    close length is = is ++ (if is.getLast?.map Instruction.opcode = some .ret then []
      else [Instruction.finalReturn length]) := by
  unfold close
  by_cases he : endsInReturn is = true
  · rw [if_pos he, if_pos ((endsInReturn_iff h).mp he), List.append_nil]
  · rw [if_neg he, if_neg (fun hl => he ((endsInReturn_iff h).mpr hl))]

/-- The instructions without a final return added at the end of a script of the given length. -/
def body (length : Nat) (is : List Instruction) : List Instruction :=
  is.filter (fun i => i.address != length)

theorem body_close {is : List Instruction} (h : Row 0 is) :
    body (assemble is).length (close (assemble is).length is) = is := by
  have hb : body (assemble is).length is = is := by
    apply List.filter_eq_self.mpr
    intro i hi
    have ha := h.address_lt hi
    simp only [bne_iff_ne]
    omega
  unfold close
  by_cases he : endsInReturn is = true
  · rw [if_pos he, hb]
  · rw [if_neg he, body, List.filter_append, ← body, hb]
    simp [Instruction.finalReturn]

/-- Decoding loses nothing: the instructions without the added return assemble to the script,
they stand one behind the other from address zero on, their opcodes are those of the table,
and a return is added exactly when the last of them is none. -/
theorem disassemble_lossless {s : Bytes} {all : List Instruction}
    (h : disassemble s = .ok all) :
    ∃ is, body s.length all = is ∧ assemble is = s ∧
      (∀ i ∈ is.head?, i.address = 0) ∧
      is.IsChain (fun i j => j.address = i.address + i.size) ∧
      (is.map Instruction.size).sum = s.length ∧
      (∀ i ∈ is, Opcode.ofByte? i.opcode.code = some i.opcode) ∧
      all = is ++ (if is.getLast?.map Instruction.opcode = some .ret then []
        else [⟨s.length, .ret, []⟩]) ∧
      (⟨s.length, .ret, []⟩ : Instruction).size = 1 := by
  obtain ⟨is, hr, rfl, rfl⟩ := disassemble_eq_ok_iff.mp h
  refine ⟨is, body_close hr, rfl, hr.head_address, hr.isChain, (length_assemble is).symm, ?_,
    close_eq hr.wellFormed _, rfl⟩
  intro i hi
  exact Instruction.ofByte?_opcode (hr.wellFormed i hi)

theorem disassemble_lossless_data :
    ∃ all, disassemble [0x0C, 0x02, 0x40, 0x40] = .ok all ∧
      assemble (body 4 all) = [0x0C, 0x02, 0x40, 0x40] := by
  have h : disassemble [0x0C, 0x02, 0x40, 0x40] =
      .ok [⟨0, .counted 0x0C "PUSHDATA1" 1, [0x40, 0x40]⟩, ⟨4, .ret, []⟩] := by cbv
  obtain ⟨is, hb, ha, -⟩ := disassemble_lossless h
  exact ⟨_, h, hb ▸ ha⟩

def place : Nat → List (Opcode × Bytes) → List Instruction
  | _, [] => []
  | address, (opcode, operand) :: rest =>
    let i : Instruction := ⟨address, opcode, operand⟩
    i :: place (address + i.size) rest

theorem map_place (address : Nat) (ps : List (Opcode × Bytes)) :
    (place address ps).map (fun i => (i.opcode, i.operand)) = ps := by
  induction ps generalizing address with
  | nil => rfl
  | cons p ps ih => simp only [place, List.map_cons, ih]

theorem row_place {ps : List (Opcode × Bytes)}
    (h : ∀ p ∈ ps, p.1 ∈ Opcode.table ∧ p.1.layout.Fits p.2.length) (address : Nat) :
    Row address (place address ps) := by
  induction ps generalizing address with
  | nil => trivial
  | cons p ps ih =>
    exact ⟨rfl, h p List.mem_cons_self, ih (fun q hq => h q (List.mem_cons_of_mem p hq)) _⟩

theorem Row.address_getElem? {address : Nat} {is : List Instruction} (h : Row address is)
    {k : Nat} {i : Instruction} (hi : is[k]? = some i) :
    i.address = address + ((is.take k).map Instruction.size).sum := by
  induction is generalizing address k with
  | nil => simp at hi
  | cons j is ih =>
    obtain ⟨rfl, -, hr⟩ := h
    cases k with
    | zero =>
      simp only [List.getElem?_cons_zero, Option.some.injEq] at hi
      simp [hi]
    | succ k =>
      have hh := ih hr hi
      simp only [List.take_succ_cons, List.map_cons, List.sum_cons]
      omega

/-- Decoding undoes assembling: any opcodes of the table with operands that fit them come back
in order, each at the sum of the sizes before it, and the only addition is the final return
of a script that does not end in one. -/
theorem disassemble_assemble {ps : List (Opcode × Bytes)}
    (h : ∀ p ∈ ps, p.1 ∈ Opcode.table ∧ p.1.layout.Fits p.2.length) :
    (place 0 ps).map (fun i => (i.opcode, i.operand)) = ps ∧
    (∀ (k : Nat) (i : Instruction), (place 0 ps)[k]? = some i →
      i.address = (((place 0 ps).take k).map Instruction.size).sum) ∧
    disassemble (assemble (place 0 ps)) =
      .ok (place 0 ps ++ (if ps.getLast?.map Prod.fst = some .ret then []
        else [⟨(assemble (place 0 ps)).length, .ret, []⟩])) := by
  have hr := row_place h 0
  have hm := map_place 0 ps
  refine ⟨hm, ?_, ?_⟩
  · intro k i hi
    have ha := hr.address_getElem? hi
    rwa [Nat.zero_add] at ha
  · have hl : ps.getLast?.map Prod.fst = (place 0 ps).getLast?.map Instruction.opcode := by
      conv_lhs => rw [← hm]
      rw [List.getLast?_map, Option.map_map]
      rfl
    rw [hl]
    exact disassemble_eq_ok_iff.mpr ⟨place 0 ps, hr, rfl, (close_eq hr.wellFormed _).symm⟩

theorem disassemble_assemble_data :
    disassemble (assemble (place 0 [(.counted 0x0D "PUSHDATA2" 2, [0x40]), (.ret, [])])) =
      .ok [⟨0, .counted 0x0D "PUSHDATA2" 2, [0x40]⟩, ⟨4, .ret, []⟩] := by
  have h : ∀ p ∈ [(Opcode.counted 0x0D "PUSHDATA2" 2, [(0x40 : UInt8)]), (.ret, [])],
      p.1 ∈ Opcode.table ∧ p.1.layout.Fits p.2.length := by decide +kernel
  exact (disassemble_assemble h).2.2

end NeoListing.Script

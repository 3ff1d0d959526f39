import NeoListing.Proofs.Contract.TokenText
import NeoListing.Proofs.Listing.CommentText

/-! # Comments are defined

Every well-formed instruction has a comment, as long as its address leaves the numbers in the
comment within the limit on digits. The operands of the table are short enough for all numbers
and long enough for every byte that a rule looks at.
-/

namespace NeoListing

theorem Bytes.natAbs_intLE_le (bs : Bytes) : (intLE bs).natAbs ≤ Nat.pow 256 bs.length := by
  have h := natLE_lt bs
  unfold intLE
  generalize Nat.pow 256 bs.length = m at h ⊢
  split <;> omega

namespace Comment

def addressLimit : Nat := 10 ^ (Text.digitLimit - 1)

theorem pow_digitLimit : 10 ^ Text.digitLimit = 10 * addressLimit := by
  have h : Text.digitLimit = Text.digitLimit - 1 + 1 := by decide
  conv_lhs => rw [h]
  rw [Nat.pow_succ', addressLimit]

theorem pow_lt_addressLimit {n : Nat} (h : n ≤ 32) : 256 ^ n < addressLimit := by
  calc 256 ^ n ≤ 256 ^ 32 := Nat.pow_le_pow_right (by decide) h
    _ < 10 ^ 96 := by decide
    _ ≤ addressLimit := Nat.pow_le_pow_right (by decide) (by decide)

theorem intLE_lt_addressLimit {bs : Bytes} (h : bs.length ≤ 32) :
    (Bytes.intLE bs).natAbs < addressLimit :=
  Nat.lt_of_le_of_lt (Bytes.natAbs_intLE_le bs) (pow_lt_addressLimit h)

theorem natLE_lt_addressLimit {bs : Bytes} (h : bs.length ≤ 32) :
    Bytes.natLE bs < addressLimit :=
  Nat.lt_trans (Bytes.natLE_lt bs) (pow_lt_addressLimit h)

theorem writable_of_lt {n : Int} (h : n.natAbs < 10 * addressLimit) : Text.Writable n := by
  rwa [Text.Writable, pow_digitLimit]

theorem writable_intLE {bs : Bytes} (h : bs.length ≤ 32) : Text.Writable (Bytes.intLE bs) := by
  have hl := intLE_lt_addressLimit h
  exact writable_of_lt (by omega)

theorem writable_natLE {bs : Bytes} (h : bs.length ≤ 32) :
    Text.Writable (Bytes.natLE bs : Int) := by
  have hl := natLE_lt_addressLimit h
  exact writable_of_lt (by omega)

theorem number_defined {n : Int} (h : n.natAbs < 10 * addressLimit) : ∃ t, number n = .ok t :=
  ⟨_, number_of_writable (writable_of_lt h)⟩

theorem block_defined (kind : String) {address offset : Int}
    (ha : address.natAbs < addressLimit) (ho : offset.natAbs < addressLimit) :
    ∃ t, block kind address offset = .ok t := by
  unfold block
  split
  · exact ⟨_, rfl⟩
  · obtain ⟨t, ht⟩ := number_defined (n := address + offset) (by omega)
    rw [ht]
    exact ⟨_, rfl⟩

theorem ofJump_defined {address : Int} {operand : Bytes} (ha : address.natAbs < addressLimit)
    (hl : operand.length ≤ 32) : ∃ t, ofJump address operand = .ok t := by
  have ho := intLE_lt_addressLimit hl
  obtain ⟨target, ht⟩ := number_defined (n := address + Bytes.intLE operand) (by omega)
  simp only [ofJump, ht, number_of_writable (writable_intLE hl)]
  exact ⟨_, rfl⟩

theorem ofTry_defined {address : Int} {operand : Bytes} (ha : address.natAbs < addressLimit)
    (hl : operand.length ≤ 32) : ∃ t, ofTry address operand = .ok t := by
  have hh : (operand.take (operand.length / 2)).length ≤ 32 :=
    Nat.le_trans (List.length_take_le' _ _) hl
  have hc : ((operand.drop (operand.length / 2)).take (operand.length / 2)).length ≤ 32 := by
    simp only [List.length_take, List.length_drop]
    omega
  obtain ⟨handler, hh⟩ := block_defined "catch" ha (intLE_lt_addressLimit hh)
  obtain ⟨cleanup, hc⟩ := block_defined "finally" ha (intLE_lt_addressLimit hc)
  simp only [ofTry, blocks, hh, hc]
  exact ⟨_, rfl⟩

theorem ofToken_defined {operand : Bytes} (hl : operand.length ≤ 32)
    {tokens : List MethodToken}
    (ht : ∀ token, tokens[Bytes.natLE operand]? = some token → token.Writable) :
    ∃ t, ofToken tokens operand = .ok t := by
  simp only [ofToken]
  split
  next token hm =>
    obtain ⟨parts, hp⟩ := MethodToken.exists_parts_of_writable (ht token hm)
    rw [hp]
    exact ⟨_, rfl⟩
  next =>
    rw [number_of_writable (writable_natLE hl)]
    exact ⟨_, rfl⟩

theorem ofService_defined {operand : Bytes} (hl : operand.length ≤ 32)
    (services : ServiceTable) : ∃ t, ofService services operand = .ok t := by
  simp only [ofService]
  split
  · exact ⟨_, rfl⟩
  · rw [number_of_writable (writable_natLE hl)]
    exact ⟨_, rfl⟩

theorem byteAt_defined {operand : Bytes} {index : Nat} (h : index < operand.length) :
    ∃ n, byteAt operand index = .ok n := by
  simp only [byteAt, List.getElem?_eq_getElem h]
  exact ⟨_, rfl⟩

theorem lt_of_byteAt {operand : Bytes} {index n : Nat} (h : byteAt operand index = .ok n) :
    n < 256 := by
  unfold byteAt at h
  split at h
  next b _ =>
    obtain rfl := Except.ok.inj h
    exact b.toNat_lt
  next => cases h

theorem label_defined {n : Int} (h : Text.Writable n) : ∃ s, ItemType.label n = some s := by
  unfold ItemType.label
  split
  · exact ⟨_, rfl⟩
  · exact ⟨_, Text.decimal?_of_writable h⟩

def Rule.bytesNeeded : Rule → Nat
  | .slots => 2
  | .staticSlots => 1
  | .slotIndex => 1
  | .itemType => 1
  | _ => 0

/-- A rule has a comment for every operand with the bytes it needs that is short enough; data
may have any length. -/
theorem Rule.comment_defined {rule : Rule} {address : Int} {operand : Bytes} {context : Context}
    (ha : address.natAbs < addressLimit) (hn : rule.bytesNeeded ≤ operand.length)
    (hl : rule = .data ∨ operand.length ≤ 32)
    (ht : rule = .methodToken → ∀ token, context.tokens[Bytes.natLE operand]? = some token →
      token.Writable) :
    ∃ t, rule.comment context address operand = .ok t := by
  cases rule with
  | data => exact ⟨_, rfl⟩
  | minusOne => exact ⟨_, rfl⟩
  | integer =>
    simp only [Rule.comment, number_of_writable (writable_intLE (hl.resolve_left (by decide)))]
    exact ⟨_, rfl⟩
  | jump => exact ofJump_defined ha (hl.resolve_left (by decide))
  | tryBlock => exact ofTry_defined ha (hl.resolve_left (by decide))
  | methodToken => exact ofToken_defined (hl.resolve_left (by decide)) (ht rfl)
  | service => exact ofService_defined (hl.resolve_left (by decide)) context.services
  | staticSlots =>
    obtain ⟨n, hb⟩ := byteAt_defined hn
    simp only [Rule.comment, hb]
    exact ⟨_, rfl⟩
  | slots =>
    obtain ⟨m, hm⟩ := byteAt_defined (Nat.lt_of_lt_of_le Nat.zero_lt_two hn)
    obtain ⟨n, hb⟩ := byteAt_defined hn
    simp only [Rule.comment, ofSlots, hm, hb]
    exact ⟨_, rfl⟩
  | slotIndex =>
    obtain ⟨n, hb⟩ := byteAt_defined hn
    simp only [Rule.comment, hb]
    exact ⟨_, rfl⟩
  | itemType =>
    obtain ⟨n, hb⟩ := byteAt_defined hn
    have hlt := lt_of_byteAt hb
    obtain ⟨s, hs⟩ := label_defined (n := n)
      (Text.writable_of_natAbs_le (k := 256) (by omega) (by decide))
    exact ⟨_, Outcome.bind_eq_ok_iff.mpr ⟨n, hb, by rw [hs]; rfl⟩⟩

def Rule.suits (rule : Rule) : Layout → Bool
  | .fixed size => rule.bytesNeeded ≤ size && size ≤ 32
  | .counted _ => rule = .data

theorem table_suits :
    Opcode.table.all (fun op => (rules.get? op.name).all (fun rule => rule.suits op.layout)) =
      true := by
  decide +kernel

theorem Rule.suits_of_get? {op : Opcode} (h : op ∈ Opcode.table) {rule : Rule}
    (hr : rules.get? op.name = some rule) : rule.suits op.layout = true := by
  have hs := List.all_eq_true.mp table_suits op h
  rwa [hr] at hs

theorem Rule.fits_of_suits {rule : Rule} {layout : Layout} (h : rule.suits layout = true)
    {n : Nat} (hf : layout.Fits n) : rule.bytesNeeded ≤ n ∧ (rule = .data ∨ n ≤ 32) := by
  cases layout with
  | fixed size =>
    obtain rfl : n = size := hf
    simp only [suits, Bool.and_eq_true, decide_eq_true_eq] at h
    exact ⟨h.1, .inr h.2⟩
  | counted width =>
    obtain rfl : rule = .data := of_decide_eq_true h
    exact ⟨Nat.zero_le n, .inl rfl⟩

theorem make_of_rule {name : String} {rule : Rule} (h : rules.get? name = some rule)
    (context : Context) (address : Int) (operand : Bytes) :
    make context name address operand = rule.comment context address operand := by
  rw [make, h]

/-- An instruction that calls by a token with a number too long to be written. -/
def CallsUnwritable (context : Context) (i : Instruction) : Prop :=
  i.opcode.name = "CALLT" ∧
    ∃ token, context.tokens[Bytes.natLE i.operand]? = some token ∧ ¬token.Writable

theorem not_callsUnwritable {context : Context} (h : ∀ token ∈ context.tokens, token.Writable)
    (i : Instruction) : ¬CallsUnwritable context i := by
  rintro ⟨-, token, ht, hw⟩
  exact hw (h token (List.mem_of_getElem? ht))

theorem name_of_methodToken {name : String} (h : rules.get? name = some .methodToken) :
    name = "CALLT" := by
  have hrules : ∀ row ∈ rules, row.2 = .methodToken → row.1 = "CALLT" := by decide
  exact hrules _ (Table.mem_of_get? h) rfl

theorem ofInstruction_of_callsUnwritable {context : Context} {i : Instruction}
    (h : CallsUnwritable context i) : ofInstruction context i = .error .tooManyDigits := by
  obtain ⟨hn, token, ht, hw⟩ := h
  have hr : rules.get? i.opcode.name = some .methodToken := by
    rw [hn]
    decide
  rw [ofInstruction, make_of_rule hr, Rule.comment, ofToken]
  simp only [ht, MethodToken.parts?_of_not_writable hw]
  rfl

/-- A well-formed instruction at an address within the limit has a comment unless it calls by a
token that cannot be written. -/
theorem exists_ofInstruction_iff {i : Instruction} (h : i.WellFormed)
    (ha : i.address < addressLimit) {context : Context} :
    (∃ t, ofInstruction context i = .ok t) ↔ ¬CallsUnwritable context i := by
  constructor
  · rintro ⟨t, ht⟩ hu
    rw [ofInstruction_of_callsUnwritable hu] at ht
    cases ht
  · intro hu
    unfold ofInstruction make
    cases hr : rules.get? i.opcode.name with
    | none => exact ⟨_, rfl⟩
    | some rule =>
      obtain ⟨hn, hl⟩ := Rule.fits_of_suits (Rule.suits_of_get? h.1 hr) h.2
      refine Rule.comment_defined (by omega) hn hl fun hm token ht => ?_
      subst hm
      by_contra hw
      exact hu ⟨name_of_methodToken hr, token, ht, hw⟩

end Comment

end NeoListing

import NeoListing.Proofs.Listing.CommentDefined
import NeoListing.Proofs.TableLookup

/-! # Names of services

The operand of a service call is the start of a digest. Table and comment read it as the same
number, so a call is given the name whose digest starts with its operand, the last one where
there are several.
-/

namespace NeoListing

theorem Bytes.natLE_inj {as bs : Bytes} (hl : as.length = bs.length)
    (h : natLE as = natLE bs) : as = bs := by
  rw [← ofNatLE_natLE as, ← ofNatLE_natLE bs, hl, h]

theorem length_sha256 (message : Bytes) : (sha256 message).length = 32 := by
  simp [sha256, Sha256.State.bytes, Sha256.bigEndian]

namespace Service

def IsAscii (name : Text) : Prop := ∀ p ∈ name, p.toNat < 128

def nameBytes (name : Text) : Bytes := name.map fun p => UInt8.ofNat p.toNat

def operand (name : Text) : Bytes := (sha256 (nameBytes name)).take 4

theorem length_operand (name : Text) : (operand name).length = 4 := by
  rw [operand, List.length_take, length_sha256]
  rfl

theorem number_of_isAscii {name : Text} (h : IsAscii name) :
    number name = .ok (Bytes.natLE (operand name)) := by
  have hall : name.all (·.toNat < 128) = true := by
    rw [List.all_eq_true]
    exact fun p hp => decide_eq_true (h p hp)
  rw [number, asciiBytes?, if_pos hall]
  rfl

theorem rows_of_isAscii {names : List Text} (h : ∀ name ∈ names, IsAscii name) :
    rows names = .ok (names.map fun name => ((Bytes.natLE (operand name) : Int), name)) := by
  induction names with
  | nil => rfl
  | cons name names ih =>
    obtain ⟨hname, hnames⟩ := List.forall_mem_cons.mp h
    rw [rows, number_of_isAscii hname, ih hnames]
    rfl

theorem prefix_digest_iff {b : Bytes} (hb : b.length = 4) {name : Text} :
    b <+: sha256 (nameBytes name) ↔ operand name = b := by
  rw [List.prefix_iff_eq_take, hb, operand]
  exact eq_comm

/-- The numbers of operands agree just if the operands do. -/
theorem natLE_operand_beq {b : Bytes} (hb : b.length = 4) (name : Text) :
    ((Bytes.natLE (operand name) : Int) == (Bytes.natLE b : Int)) =
      decide (b <+: sha256 (nameBytes name)) := by
  have hl : (operand name).length = b.length := by rw [length_operand, hb]
  rw [beq_eq_decide, decide_eq_decide, Nat.cast_inj, prefix_digest_iff hb]
  constructor
  · exact Bytes.natLE_inj hl
  · rintro rfl
    rfl

/-- A number leads to the last of the names whose digests start with its bytes. -/
theorem get?_table {names : List Text} {services : ServiceTable} (ht : table names = .ok services)
    (h : ∀ name ∈ names, IsAscii name) {b : Bytes} (hb : b.length = 4) :
    services.get? (Bytes.natLE b) =
      (names.filter fun name => b <+: sha256 (nameBytes name)).getLast? := by
  rw [table, rows_of_isAscii h] at ht
  obtain rfl := Except.ok.inj ht
  rw [Table.get?_ofRows, ← List.map_reverse, Table.get?_map, List.getLast?_filter]
  simp only [natLE_operand_beq hb, Option.map_id']

theorem getLast?_filter_operand {names : List Text} (h : (names.map operand).Nodup) {name : Text}
    (hm : name ∈ names) :
    (names.filter fun other => operand name <+: sha256 (nameBytes other)).getLast? = some name := by
  cases hlast : (names.filter fun other => operand name <+: sha256 (nameBytes other)).getLast? with
  | none =>
    have hown : operand name <+: sha256 (nameBytes name) := List.take_prefix 4 _
    have hnil := List.getLast?_eq_none_iff.mp hlast
    exact absurd (decide_eq_true hown) (List.filter_eq_nil_iff.mp hnil name hm)
  | some other =>
    obtain ⟨hother, hstart⟩ := List.mem_filter.mp (List.mem_of_getLast? hlast)
    have hop := (prefix_digest_iff (length_operand name)).mp (of_decide_eq_true hstart)
    rw [List.inj_on_of_nodup_map h hother hm hop]

end Service

namespace Comment

theorem make_service {b : Bytes} (hb : b.length ≤ 32) (context : Context) (address : Int) :
    make context "SYSCALL" address b =
      .ok ((context.services.get? (Bytes.natLE b)).getD
        (Text.ofString ("Unknown SysCall " ++ toString (Bytes.natLE b)))) := by
  have hrule : rules.get? "SYSCALL" = some .service := by decide
  rw [make_of_rule hrule, Rule.comment, ofService]
  cases hs : context.services.get? (Bytes.natLE b) with
  | some name => rfl
  | none =>
    simp only [number_of_writable (writable_natLE hb), Option.getD_none, Text.ofString_append]
    rfl

end Comment

namespace Service

/-- A call is told by the last of the names whose digest starts with its operand, and by the number
of the operand where there is none. So names whose digests start differently are all found by their
own operands. -/
theorem call_named_by_digest {names : List Text} (h : ∀ name ∈ names, IsAscii name) :
    ∃ services, table names = .ok services ∧ ∀ (tokens : List MethodToken) (address : Int),
      (∀ b : Bytes, b.length = 4 →
        Comment.make ⟨tokens, services⟩ "SYSCALL" address b =
          .ok ((names.filter fun name => b <+: sha256 (nameBytes name)).getLast?.getD
            (Text.ofString ("Unknown SysCall " ++ toString (Bytes.natLE b))))) ∧
      ((names.map operand).Nodup → ∀ name ∈ names,
        Comment.make ⟨tokens, services⟩ "SYSCALL" address (operand name) = .ok name) := by
  have ht : table names =
      .ok (.ofRows (names.map fun name => ((Bytes.natLE (operand name) : Int), name))) := by
    rw [table, rows_of_isAscii h]
    rfl
  refine ⟨_, ht, fun tokens address => ⟨fun b hb => ?_, fun hnodup name hm => ?_⟩⟩
  · rw [Comment.make_service (by omega), get?_table ht h hb]
  · have hl := length_operand name
    rw [Comment.make_service (by omega), get?_table ht h hl, getLast?_filter_operand hnodup hm]
    rfl

theorem call_named_by_digest_pair :
    ∃ services,
      table [Text.ofString "System.Runtime.Log", Text.ofString "System.Runtime.Notify"] =
          .ok services ∧
        Comment.make ⟨[], services⟩ "SYSCALL" 0 [0x95, 0x01, 0x6F, 0x61] =
          .ok (Text.ofString "System.Runtime.Notify") ∧
        Comment.make ⟨[], services⟩ "SYSCALL" 0 [0x61, 0x6F, 0x01, 0x95] =
          .ok (Text.ofString ("Unknown SysCall " ++ toString 2499899233)) := by
  have hlog : operand (Text.ofString "System.Runtime.Log") = [0xCF, 0xE7, 0x47, 0x96] := by
    decide +kernel
  have hnotify : operand (Text.ofString "System.Runtime.Notify") = [0x95, 0x01, 0x6F, 0x61] := by
    decide +kernel
  have hascii : ∀ name ∈ [Text.ofString "System.Runtime.Log",
      Text.ofString "System.Runtime.Notify"], IsAscii name := by
    unfold IsAscii
    decide
  obtain ⟨services, ht, hcalls⟩ := call_named_by_digest hascii
  obtain ⟨hall, hdistinct⟩ := hcalls [] 0
  have hfound := hdistinct (by simp [hlog, hnotify]) (Text.ofString "System.Runtime.Notify")
    (by simp)
  rw [hnotify] at hfound
  have hlength : ([0x61, 0x6F, 0x01, 0x95] : Bytes).length = 4 := rfl
  have hvalue : Bytes.natLE [0x61, 0x6F, 0x01, 0x95] = 2499899233 := by decide
  have hunknown := hall [0x61, 0x6F, 0x01, 0x95] hlength
  simp only [prefix_digest_iff hlength, List.filter_cons, hlog, hnotify, hvalue] at hunknown
  exact ⟨services, ht, hfound, hunknown⟩

end Service

end NeoListing

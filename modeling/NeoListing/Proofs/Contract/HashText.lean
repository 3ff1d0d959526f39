import NeoListing.Proofs.Contract.DeployedState
import NeoListing.Proofs.Contract.InlineScript
import NeoListing.Proofs.TableLookup

/-! # Script hashes as text

A script hash is read from its text, whatever mark stands in front and whatever the case of its
digits, and besides blanks around the bytes nothing else is read as a script hash. The names that
contracts go by are all different.
-/

namespace NeoListing

theorem Text.map_scalar_chars {t : Text} (h : ∀ p ∈ t, p.toNat < 128) :
    t.chars.map .scalar = t := by
  induction t with
  | nil => rfl
  | cons p t ih =>
    obtain ⟨hp, ht⟩ := List.forall_mem_cons.mp h
    cases p with
    | scalar c => exact congrArg (CodePoint.scalar c :: ·) (ih ht)
    | surrogate index =>
      have hs : 0xD800 + index.val < 128 := hp
      omega

namespace Hex

def Spaced (cs : List Char) (bs : Bytes) : Prop :=
  ∃ (front : List Char) (groups : List (List Char × List Char)),
    cs = front ++ groups.flatMap (fun g => g.1 ++ g.2) ∧ (∀ c ∈ front, isBlank c = true) ∧
    List.Forall₂ (fun b g => Spells g.1 [b] ∧ ∀ c ∈ g.2, isBlank c = true) bs groups

theorem toLower_of_digit? {c : Char} {v : Nat} (h : digit? c = some v) :
    v < 16 ∧ c.toLower = Nat.digitChar v := by
  have hall : ∀ n < 128, (digit? (Char.ofNat n)).all
      (fun v => v < 16 ∧ (Char.ofNat n).toLower = Nat.digitChar v) = true := by
    decide
  have hn := toNat_of_digit? h
  have hc := hall c.toNat (by omega)
  rw [Char.ofNat_toNat, h, Option.all_some] at hc
  exact of_decide_eq_true hc

theorem spells_pair {c d : Char} {high low : Nat} (hc : digit? c = some high)
    (hd : digit? d = some low) : Spells [c, d] [UInt8.ofNat (16 * high + low)] := by
  obtain ⟨hhigh, hc⟩ := toLower_of_digit? hc
  obtain ⟨hlow, hd⟩ := toLower_of_digit? hd
  have hb : (UInt8.ofNat (16 * high + low)).toNat = 16 * high + low := by
    rw [UInt8.toNat_ofNat', Nat.mod_eq_of_lt (by omega)]
  have hdiv : (16 * high + low) / 16 = high := by omega
  have hmod : (16 * high + low) % 16 = low := by omega
  rw [Spells, List.flatMap_singleton, Bytes.hexPair, hb, hdiv, hmod, ← hc, ← hd]
  rfl

theorem pairs_blanks {front : List Char} (h : ∀ c ∈ front, isBlank c = true) (position : Nat)
    (cs : List Char) : pairs position (front ++ cs) = pairs (position + front.length) cs := by
  induction front generalizing position with
  | nil => rfl
  | cons c front ih =>
    obtain ⟨hc, hfront⟩ := List.forall_mem_cons.mp h
    rw [List.cons_append, pairs.eq_def]
    simp only [hc, if_true]
    rw [ih hfront, List.length_cons, Nat.add_assoc, Nat.add_comm 1]

theorem spaced_of_pairs {position : Nat} {cs : List Char} {bs : Bytes}
    (h : pairs position cs = .ok bs) : Spaced cs bs := by
  fun_induction pairs position cs generalizing bs with
  | case1 position =>
    obtain rfl := Except.ok.inj h
    exact ⟨[], [], rfl, List.forall_mem_nil _, .nil⟩
  | case2 position c rest hb ih =>
    obtain ⟨front, groups, rfl, hfront, hgroups⟩ := ih h
    exact ⟨c :: front, groups, rfl, List.forall_mem_cons.mpr ⟨hb, hfront⟩, hgroups⟩
  | case3 => cases h
  | case4 => cases h
  | case5 => cases h
  | case6 position c hb high d rest hc low hd ih =>
    obtain ⟨more, hm, rfl⟩ := Outcome.map_eq_ok_iff.mp h
    -- the blanks in front of the rest are those behind this pair
    obtain ⟨front, groups, rfl, hfront, hgroups⟩ := ih hm
    exact ⟨[], ([c, d], front) :: groups, rfl, List.forall_mem_nil _,
      .cons ⟨spells_pair hc hd, hfront⟩ hgroups⟩

theorem pairs_of_spaced {cs : List Char} {bs : Bytes} (h : Spaced cs bs) (position : Nat) :
    pairs position cs = .ok bs := by
  obtain ⟨front, groups, rfl, hfront, hgroups⟩ := h
  rw [pairs_blanks hfront]
  generalize position + front.length = position
  induction hgroups generalizing position with
  | nil => rfl
  | @cons b g bs groups hg _ ih =>
    obtain ⟨digits, blanks⟩ := g
    obtain ⟨hs, hblanks⟩ := hg
    obtain ⟨c, d, rest, rfl, hc, hd, hrest⟩ := hs.exists_pair
    obtain rfl : rest = [] := List.map_eq_nil_iff.mp hrest
    rw [List.flatMap_cons, List.append_assoc]
    change pairs position (c :: d :: (blanks ++ _)) = _
    rw [pairs_cons_cons hc hd, pairs_blanks hblanks, ih]
    rfl

theorem Spells.spaced {cs : List Char} {bs : Bytes} (h : Spells cs bs) : Spaced cs bs :=
  spaced_of_pairs (h.pairs_eq 0)

theorem digit_or_blank_of_pairs {position : Nat} {cs : List Char} {bs : Bytes}
    (h : pairs position cs = .ok bs) : ∀ c ∈ cs, (∃ v, digit? c = some v) ∨ isBlank c = true := by
  fun_induction pairs position cs generalizing bs with
  | case1 => exact List.forall_mem_nil _
  | case2 position c rest hb ih => exact List.forall_mem_cons.mpr ⟨.inr hb, ih h⟩
  | case3 => cases h
  | case4 => cases h
  | case5 => cases h
  | case6 position c hb high d rest hc low hd ih =>
    obtain ⟨more, hm, -⟩ := Outcome.map_eq_ok_iff.mp h
    exact List.forall_mem_cons.mpr
      ⟨.inl ⟨high, hc⟩, List.forall_mem_cons.mpr ⟨.inl ⟨low, hd⟩, ih hm⟩⟩

theorem toNat_lt_of_isBlank {c : Char} (h : isBlank c = true) : c.toNat < 128 := by
  simp only [isBlank, Bool.or_eq_true, beq_iff_eq, Bool.and_eq_true, decide_eq_true_eq] at h
  rcases h with rfl | ⟨-, hr⟩
  · decide
  · exact (Text.toNat_le_toNat hr).trans_lt (by decide)

/-- What is read is bytes in pairs of digits, with blanks around them, and nothing else. -/
theorem decode_eq_ok_iff {t : Text} {bs : Bytes} :
    decode t = .ok bs ↔ ∃ cs : List Char, t = cs.map .scalar ∧ Spaced cs bs := by
  constructor
  · intro h
    unfold decode at h
    split at h
    · cases h
    next hascii =>
      refine ⟨t.chars, (Text.map_scalar_chars fun p hp => ?_).symm, spaced_of_pairs h⟩
      exact Nat.not_le.mp (of_decide_eq_false (List.findIdx?_eq_none_iff.mp hascii p hp))
  · rintro ⟨cs, rfl, hs⟩
    have hp := pairs_of_spaced hs 0
    rw [decode_eq_pairs, hp]
    intro c hc
    rcases digit_or_blank_of_pairs hp c hc with ⟨v, hv⟩ | hb
    · have hn := toNat_of_digit? hv
      omega
    · exact toNat_lt_of_isBlank hb

end Hex

namespace ScriptHash

/-- A text that stands for a script hash: after a mark, which may be missing, its bytes in the
order in which they are shown, in pairs of digits with blanks around them. -/
def IsWritten (t : Text) (h : ScriptHash) : Prop :=
  ∃ mark ∈ ["", "0x", "0X"], ∃ cs : List Char,
    t = Text.ofString mark ++ cs.map .scalar ∧ Hex.Spaced cs h.bytes.reverse

theorem ofBytes_eq_ok_iff {bytes : Bytes} {h : ScriptHash} :
    ofBytes bytes = .ok h ↔ bytes = h.bytes := by
  unfold ofBytes
  split
  next hl =>
    constructor
    · intro he
      rw [← Except.ok.inj he]
    · rintro rfl
      rfl
  next hl =>
    constructor
    · intro he
      cases he
    · rintro rfl
      exact absurd h.length_eq hl

theorem parse_eq_ok_iff_decode {t : Text} {h : ScriptHash} :
    parse t = .ok h ↔ Hex.decode ((dropHexMark t).getD t) = .ok h.bytes.reverse := by
  unfold parse
  cases Hex.decode ((dropHexMark t).getD t) with
  | error e => simp
  | ok bytes => simp only [ofBytes_eq_ok_iff, List.reverse_eq_iff, Except.ok.injEq]

theorem parse_eq_ok_iff {t : Text} {h : ScriptHash} : parse t = .ok h ↔ IsWritten t h := by
  rw [parse_eq_ok_iff_decode, Hex.decode_eq_ok_iff]
  constructor
  · rintro ⟨cs, hcs, hs⟩
    cases hm : dropHexMark t with
    | none =>
      rw [hm, Option.getD_none] at hcs
      exact ⟨"", by decide, cs, hcs, hs⟩
    | some rest =>
      rw [hm, Option.getD_some] at hcs
      obtain ⟨c, rfl | rfl, rfl⟩ := Contract.mark_of_dropHexMark hm
      · exact ⟨"0x", by decide, cs, by rw [hcs]; rfl, hs⟩
      · exact ⟨"0X", by decide, cs, by rw [hcs]; rfl, hs⟩
  · rintro ⟨mark, hmark, cs, rfl, hs⟩
    refine ⟨cs, ?_, hs⟩
    simp only [List.mem_cons, List.not_mem_nil, or_false] at hmark
    rcases hmark with rfl | rfl | rfl
    · have hnone : dropHexMark (cs.map .scalar) = none :=
        Contract.dropHexMark_map_scalar (Hex.digit_or_blank_of_pairs (Hex.pairs_of_spaced hs 0))
      change (dropHexMark (cs.map .scalar)).getD (cs.map .scalar) = _
      rw [hnone]
      rfl
    · rfl
    · rfl

theorem text_injective {h h' : ScriptHash} (he : h.text = h'.text) : h = h' := by
  have hp := parse_text h
  rw [he, parse_text h'] at hp
  exact (Except.ok.inj hp).symm

theorem contractName_cases (h : ScriptHash) :
    (h.text, h.contractName) ∈ natives ∨ h.contractName = h.text := by
  unfold contractName
  cases hn : natives.get? h.text with
  | none => exact .inr rfl
  | some name => exact .inl (Table.mem_of_get? hn)

/-- No native contract is named like a hash. -/
theorem not_mem_natives (key : String) (h : ScriptHash) : (key, h.text) ∉ natives := by
  have hmark : ∀ row ∈ natives, row.2.toList.head? ≠ some '0' := by decide
  intro hm
  apply hmark _ hm
  rw [text, String.toList_append]
  rfl

theorem contractName_inj {h h' : ScriptHash} (he : h.contractName = h'.contractName) : h = h' := by
  have hnames : (natives.map Prod.snd).Nodup := by decide
  apply text_injective
  rcases contractName_cases h with hm | ht
  · rcases contractName_cases h' with hm' | ht'
    · exact congrArg Prod.fst (List.inj_on_of_nodup_map hnames hm hm' he)
    · rw [he, ht'] at hm
      exact absurd hm (not_mem_natives _ h')
  · rcases contractName_cases h' with hm' | ht'
    · rw [← he, ht] at hm'
      exact absurd hm' (not_mem_natives _ h)
    · rw [← ht, he, ht']

/-- Script hashes are shown and read without confusion: each is read from its text, with any mark
and in either case; a text is read just if it is the written form of a script hash, and refused
otherwise; and contracts of the same name are the same. -/
theorem text_unconfused :
    (∀ h : ScriptHash, parse h.text = .ok h) ∧
      (∀ (h : ScriptHash) (digits : List Char), Hex.Spells digits h.bytes.reverse →
        ∀ mark ∈ ["", "0x", "0X"], parse (Text.ofString mark ++ digits.map .scalar) = .ok h) ∧
      (∀ t : Text, (∀ h, parse t = .ok h ↔ IsWritten t h) ∧
        ((∃ e, parse t = .error e) ↔ ¬∃ h, IsWritten t h)) ∧
      ∀ h h' : ScriptHash, h.contractName = h'.contractName ↔ h = h' := by
  refine ⟨parse_text, fun h digits hs mark hm => ?_, fun t => ⟨fun h => parse_eq_ok_iff, ?_⟩,
    fun h h' => ⟨contractName_inj, congrArg contractName⟩⟩
  · exact parse_eq_ok_iff.mpr ⟨mark, hm, digits, rfl, hs.spaced⟩
  · simp only [← parse_eq_ok_iff]
    cases parse t with
    | ok h => simp
    | error e => simp

def topHash : ScriptHash := ⟨(List.range 20).map fun n => UInt8.ofNat (236 + n), rfl⟩

theorem text_unconfused_top :
    Hex.Spells "FFFEFDFCFBFAF9F8F7F6F5F4F3F2F1F0EFEEEDEC".toList topHash.bytes.reverse ∧
      parse "0XFFFEFDFCFBFAF9F8F7F6F5F4F3F2F1F0EFEEEDEC" = .ok topHash ∧
      parse "FFFEFDFCFBFAF9F8F7F6F5F4F3F2F1F0EFEEEDEC" = .ok topHash := by
  have hs : Hex.Spells "FFFEFDFCFBFAF9F8F7F6F5F4F3F2F1F0EFEEEDEC".toList topHash.bytes.reverse := by
    decide
  have hread := text_unconfused.2.1 topHash _ hs
  exact ⟨hs, hread "0X" (by decide), hread "" (by decide)⟩

end ScriptHash

end NeoListing

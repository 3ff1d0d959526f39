import NeoListing.Contract.Input
import NeoListing.Proofs.Text.ByteText

/-! # Scripts written out

A script may be written in hexadecimal behind a mark, in Base64 or in bare hexadecimal, and is read
as it was meant, with one exception: the digits of an even number of bytes are also text in Base64,
and Base64 is tried first. Blanks around a script do not count.
-/

namespace NeoListing

/-! ## Blanks at the ends -/

namespace Text

section Trim

variable {α : Type} {blank : α → Bool} {u : List α}

theorem trimList_append_left (h : ∀ c ∈ u, blank c = true) (t : List α) :
    trimList blank (u ++ t) = trimList blank t := by
  have hu : u.dropWhile blank = [] := List.dropWhile_eq_nil_iff.mpr h
  rw [trimList, List.dropWhile_append, hu, List.isEmpty_nil, if_pos rfl, trimList]

theorem trimList_append_right (h : ∀ c ∈ u, blank c = true) (t : List α) :
    trimList blank (t ++ u) = trimList blank t := by
  have hu : u.dropWhile blank = [] := List.dropWhile_eq_nil_iff.mpr h
  have hr : u.reverse.dropWhile blank = [] :=
    List.dropWhile_eq_nil_iff.mpr fun c hc => h c (List.mem_reverse.mp hc)
  rw [trimList, trimList, List.dropWhile_append]
  cases ht : t.dropWhile blank with
  | nil => rw [List.isEmpty_nil, if_pos rfl, hu]
  | cons c rest =>
    rw [List.isEmpty_cons, if_neg Bool.false_ne_true, List.reverse_append, List.dropWhile_append,
      hr, List.isEmpty_nil, if_pos rfl]

theorem trimList_eq_self {t : List α} (h : ∀ c ∈ t, blank c = false) : trimList blank t = t := by
  have hd : ∀ {l : List α}, (∀ c ∈ l, blank c = false) → l.dropWhile blank = l := by
    intro l hl
    cases l with
    | nil => rfl
    | cons c rest => exact List.dropWhile_cons_of_neg (by simp [hl c List.mem_cons_self])
  rw [trimList, hd h, hd fun c hc => h c (List.mem_reverse.mp hc), List.reverse_reverse]

end Trim

/-- Visible ASCII has no blanks to lose. -/
theorem trim_map_scalar {cs : List Char} (h : ∀ c ∈ cs, 33 ≤ c.toNat ∧ c.toNat < 128) :
    trim (cs.map .scalar) = cs.map .scalar := by
  refine trimList_eq_self fun p hp => ?_
  obtain ⟨c, hc, rfl⟩ := List.mem_map.mp hp
  have hn := h c hc
  change isBlank c = false
  simp only [isBlank, Bool.or_eq_false_iff, Bool.and_eq_false_iff, decide_eq_false_iff_not,
    beq_eq_false_iff_ne]
  omega

end Text

namespace Contract

/-! ## The three ways to read a script -/

section Ways

variable {text : Text}

theorem decodeInline_of_mark {digits : Text}
    (h : ScriptHash.dropHexMark (Text.trim text) = some digits) :
    decodeInline text = .ok (Hex.decode digits).toOption := by
  simp only [decodeInline, h]

theorem decodeInline_of_base64 {bytes : Bytes}
    (h : ScriptHash.dropHexMark (Text.trim text) = none)
    (hb : Base64.decode (Text.trim text) = .ok bytes) : decodeInline text = .ok (some bytes) := by
  simp only [decodeInline, h, hb]

theorem decodeInline_of_notAscii (h : ScriptHash.dropHexMark (Text.trim text) = none)
    (hb : Base64.decode (Text.trim text) = .error .notAscii) :
    decodeInline text = .error .notAscii := by
  simp only [decodeInline, h, hb]

theorem decodeInline_of_hex {e : Base64.Error}
    (h : ScriptHash.dropHexMark (Text.trim text) = none)
    (hb : Base64.decode (Text.trim text) = .error e) (he : e ≠ .notAscii) :
    decodeInline text = .ok (Hex.decode (Text.trim text)).toOption := by
  simp only [decodeInline, h, hb]

end Ways

/-! ## Marks and digits -/

theorem mark_of_dropHexMark {t rest : Text} (h : ScriptHash.dropHexMark t = some rest) :
    ∃ c : Char, (c = 'x' ∨ c = 'X') ∧ t = .scalar '0' :: .scalar c :: rest := by
  unfold ScriptHash.dropHexMark at h
  split at h
  · obtain rfl := Option.some.inj h
    exact ⟨'x', .inl rfl, rfl⟩
  · obtain rfl := Option.some.inj h
    exact ⟨'X', .inr rfl, rfl⟩
  · cases h

/-- The letter of a mark is neither a digit nor a blank. -/
theorem dropHexMark_map_scalar {cs : List Char}
    (h : ∀ c ∈ cs, (∃ v, Hex.digit? c = some v) ∨ Hex.isBlank c = true) :
    ScriptHash.dropHexMark (cs.map .scalar) = none := by
  cases hm : ScriptHash.dropHexMark (cs.map .scalar) with
  | none => rfl
  | some rest =>
    obtain ⟨c, hc, ht⟩ := mark_of_dropHexMark hm
    have hmem : c ∈ cs := by
      have hs : CodePoint.scalar c ∈ cs.map CodePoint.scalar := by simp [ht]
      obtain ⟨d, hd, he⟩ := List.mem_map.mp hs
      exact CodePoint.scalar.inj he ▸ hd
    rcases h c hmem with ⟨v, hv⟩ | hb
    · rcases hc with rfl | rfl <;> cases hv
    · rcases hc with rfl | rfl <;> cases hb

section Digits

variable {digits : List Char} {bytes : Bytes}

theorem visible_of_spells (h : Hex.Spells digits bytes) :
    ∀ c ∈ digits, 33 ≤ c.toNat ∧ c.toNat < 128 := by
  intro c hc
  obtain ⟨v, hv⟩ := h.digits c hc
  have hn := Hex.toNat_of_digit? hv
  omega

theorem dropHexMark_of_spells (h : Hex.Spells digits bytes) :
    ScriptHash.dropHexMark (digits.map .scalar) = none :=
  dropHexMark_map_scalar fun c hc => .inl (h.digits c hc)

theorem decodeInline_of_marked (h : Hex.Spells digits bytes) {x : Char} (hx : x = 'x' ∨ x = 'X') :
    decodeInline (('0' :: x :: digits).map .scalar) = .ok (some bytes) := by
  have htrim : Text.trim (('0' :: x :: digits).map .scalar) = ('0' :: x :: digits).map .scalar := by
    apply Text.trim_map_scalar
    rw [List.forall_mem_cons, List.forall_mem_cons]
    refine ⟨by decide, ?_, visible_of_spells h⟩
    rcases hx with rfl | rfl <;> decide
  have hdrop : ScriptHash.dropHexMark (Text.trim (('0' :: x :: digits).map .scalar)) =
      some (digits.map .scalar) := by
    rw [htrim]
    rcases hx with rfl | rfl <;> rfl
  rw [decodeInline_of_mark hdrop, h.decode_eq]
  rfl

/-- All hexadecimal digits belong to the alphabet of Base64. -/
theorem value?_of_digit? {c : Char} {v : Nat} (h : Hex.digit? c = some v) :
    ∃ w, Base64.value? c = some w := by
  have hrange : ∀ {d e : Char}, d.toNat ≤ c.toNat → c.toNat ≤ e.toNat → d ≤ c ∧ c ≤ e :=
    fun hd he => ⟨UInt32.le_iff_toNat_le.mpr hd, UInt32.le_iff_toNat_le.mpr he⟩
  have hz : 'f'.toNat ≤ 'z'.toNat ∧ 'F'.toNat ≤ 'Z'.toNat := by decide
  unfold Base64.value?
  split
  next => exact ⟨_, rfl⟩
  next hupper =>
    split
    next => exact ⟨_, rfl⟩
    next hlower =>
      split
      next => exact ⟨_, rfl⟩
      next hdigit =>
        rcases Hex.toNat_of_digit? h with hn | hn | hn
        · exact (hdigit (hrange hn.1 hn.2)).elim
        · exact (hlower (hrange hn.1 (hn.2.trans hz.1))).elim
        · exact (hupper (hrange hn.1 (hn.2.trans hz.2))).elim

theorem decodeInline_of_bare_even (h : Hex.Spells digits bytes) (he : bytes.length % 2 = 0) :
    ∃ other, Base64.decode (digits.map .scalar) = .ok other ∧
      decodeInline (digits.map .scalar) = .ok (some other) ∧
      2 * other.length = 3 * bytes.length := by
  have hlen := h.length_eq
  have htrim := Text.trim_map_scalar (visible_of_spells h)
  obtain ⟨other, ho, hl⟩ := Base64.exists_decode_of_complete
    (fun c hc => value?_of_digit? (h.digits c hc).choose_spec) (by omega)
  refine ⟨other, ho, decodeInline_of_base64 ?_ ?_, by omega⟩
  · rw [htrim]
    exact dropHexMark_of_spells h
  · rw [htrim]
    exact ho

theorem decodeInline_of_bare_odd (h : Hex.Spells digits bytes) (ho : bytes.length % 2 = 1) :
    decodeInline (digits.map .scalar) = .ok (some bytes) := by
  have hlen := h.length_eq
  have htrim := Text.trim_map_scalar (visible_of_spells h)
  have hb := Base64.decode_of_half
    (fun c hc => value?_of_digit? (h.digits c hc).choose_spec) (by omega)
  rw [decodeInline_of_hex (e := .incompletePadding), htrim, h.decode_eq]
  · rfl
  · rw [htrim]
    exact dropHexMark_of_spells h
  · rw [htrim]
    exact hb
  · decide

end Digits

/-! ## Base64 -/

theorem length_encodeList (bytes : Bytes) :
    (Base64.encodeList bytes).length = 4 * ((bytes.length + 2) / 3) := by
  fun_induction Base64.encodeList bytes with
  | case1 a b c rest ih =>
    simp only [List.length_cons, ih]
    omega
  | case2 => simp
  | case3 => simp
  | case4 => simp

theorem length_le_of_pairs {position : Nat} {cs : List Char} {bytes : Bytes}
    (h : Hex.pairs position cs = .ok bytes) : 2 * bytes.length ≤ cs.length := by
  fun_induction Hex.pairs position cs generalizing bytes with
  | case1 position =>
    obtain rfl := Except.ok.inj h
    exact Nat.zero_le _
  | case2 position c rest hb ih =>
    have hle := ih h
    rw [List.length_cons]
    omega
  | case3 => cases h
  | case4 => cases h
  | case5 => cases h
  | case6 position c hb high hc d rest low hd ih =>
    obtain ⟨more, hm, rfl⟩ := Outcome.map_eq_ok_iff.mp h
    have hle := ih hm
    simp only [List.length_cons]
    omega

theorem length_le_of_decode {t : Text} {bytes : Bytes} (h : Hex.decode t = .ok bytes) :
    2 * bytes.length ≤ t.length := by
  unfold Hex.decode at h
  split at h
  · cases h
  · exact (length_le_of_pairs h).trans (List.length_filterMap_le _ _)

section Base64

variable {bytes : Bytes}

theorem trim_encode (bytes : Bytes) :
    Text.trim (Base64.encode bytes) = Text.ofString (Base64.encode bytes) := by
  rw [Text.ofString, Base64.encode, String.toList_ofList]
  exact Text.trim_map_scalar fun c hc => Base64.toNat_of_mem_encodeList hc

theorem decodeInline_encode (h : ScriptHash.dropHexMark (Base64.encode bytes) = none) :
    decodeInline (Base64.encode bytes) = .ok (some bytes) := by
  refine decodeInline_of_base64 ?_ ?_
  · rw [trim_encode, h]
  · rw [trim_encode, Base64.decode_encode]

/-- Base64 that begins like a mark has too few digits behind it for the bytes that were meant. -/
theorem decodeInline_encode_of_mark {rest : Text}
    (h : ScriptHash.dropHexMark (Base64.encode bytes) = some rest) :
    decodeInline (Base64.encode bytes) ≠ .ok (some bytes) := by
  rw [decodeInline_of_mark (by rw [trim_encode, h])]
  intro he
  have hd : Hex.decode rest = .ok bytes := Outcome.toOption_eq_some_iff.mp (Except.ok.inj he)
  obtain ⟨c, -, ht⟩ := mark_of_dropHexMark h
  have hlen : rest.length + 2 = 4 * ((bytes.length + 2) / 3) := by
    have hl := congrArg List.length ht
    rw [Text.ofString, Base64.encode, String.toList_ofList, List.length_map,
      length_encodeList] at hl
    exact hl.symm
  have hle := length_le_of_decode hd
  obtain ⟨b, rfl⟩ : ∃ b, bytes = [b] := List.length_eq_one_iff.mp (by omega)
  -- one byte is written with two characters and padding, which is no digit
  have hrest : rest = [.scalar '=', .scalar '='] := by
    rw [Text.ofString, Base64.encode, String.toList_ofList] at ht
    exact (List.cons.inj (List.cons.inj ht).2).2.symm
  rw [hrest] at hd
  cases hd

end Base64

/-- How what is written out is read: digits behind a mark and Base64 as they are meant, bare digits
as Base64 where they can be, and blanks around a script not at all. -/
theorem decodeInline_written (bytes : Bytes) :
    (∀ digits, Hex.Spells digits bytes → ∀ x, x = 'x' ∨ x = 'X' →
      decodeInline (('0' :: x :: digits).map .scalar) = .ok (some bytes)) ∧
    (decodeInline (Base64.encode bytes) = .ok (some bytes) ↔
      ScriptHash.dropHexMark (Base64.encode bytes) = none) ∧
    (∀ digits, Hex.Spells digits bytes →
      (decodeInline (digits.map .scalar) = .ok (some bytes) ↔
        bytes = [] ∨ bytes.length % 2 = 1) ∧
      (bytes ≠ [] → bytes.length % 2 = 0 →
        ∃ other, Base64.decode (digits.map .scalar) = .ok other ∧
          decodeInline (digits.map .scalar) = .ok (some other) ∧ other ≠ bytes ∧
          2 * other.length = 3 * bytes.length)) ∧
    ∀ before text after : Text, (∀ p ∈ before, p.isIn Text.isBlank = true) →
      (∀ p ∈ after, p.isIn Text.isBlank = true) →
      decodeInline (before ++ text ++ after) = decodeInline text := by
  refine ⟨fun digits h x hx => decodeInline_of_marked h hx, ⟨fun h => ?_, decodeInline_encode⟩,
    fun digits h => ⟨⟨fun hd => ?_, ?_⟩, fun hn he => ?_⟩, fun before text after hb ha => ?_⟩
  · cases hm : ScriptHash.dropHexMark (Base64.encode bytes) with
    | none => rfl
    | some rest => exact absurd h (decodeInline_encode_of_mark hm)
  · rcases Nat.mod_two_eq_zero_or_one bytes.length with he | ho
    · obtain ⟨other, -, hother, hlen⟩ := decodeInline_of_bare_even h he
      rw [hother] at hd
      obtain rfl : other = bytes := Option.some.inj (Except.ok.inj hd)
      exact .inl (List.eq_nil_of_length_eq_zero (by omega))
    · exact .inr ho
  · rintro (rfl | ho)
    · obtain rfl : digits = [] := List.eq_nil_of_length_eq_zero h.length_eq
      rfl
    · exact decodeInline_of_bare_odd h ho
  · obtain ⟨other, hb, hother, hlen⟩ := decodeInline_of_bare_even h he
    refine ⟨other, hb, hother, ?_, hlen⟩
    rintro rfl
    exact hn (List.eq_nil_of_length_eq_zero (by omega))
  · have htrim : Text.trim (before ++ text ++ after) = Text.trim text := by
      rw [Text.trim, Text.trimList_append_right ha, Text.trimList_append_left hb, Text.trim]
    simp only [decodeInline, htrim]

/-- Two bytes in all forms: only their bare digits are read as something else. -/
theorem decodeInline_written_pair :
    Hex.Spells ['4', '0', '0', 'C'] [0x40, 0x0C] ∧
      decodeInline "0X400C" = .ok (some [0x40, 0x0C]) ∧
      decodeInline "QAw=" = .ok (some [0x40, 0x0C]) ∧
      (∃ other, decodeInline "400C" = .ok (some other) ∧ other.length = 3) ∧
      decodeInline "\t400C\n" = decodeInline "400C" := by
  obtain ⟨hmarked, hbase64, hbare, hblank⟩ := decodeInline_written [0x40, 0x0C]
  have hs : Hex.Spells ['4', '0', '0', 'C'] [0x40, 0x0C] := by decide
  obtain ⟨other, -, hother, -, hlen⟩ := (hbare _ hs).2 (by decide) (by decide)
  have htext : Text.ofString "\t400C\n" = "\t" ++ "400C" ++ "\n" := by decide
  refine ⟨hs, hmarked _ hs 'X' (.inr rfl), hbase64.mpr (by decide), ⟨other, hother, ?_⟩, ?_⟩
  · exact Nat.mul_left_cancel Nat.two_pos hlen
  · rw [htext]
    exact hblank "\t" "400C" "\n" (by decide) (by decide)

end Contract

end NeoListing

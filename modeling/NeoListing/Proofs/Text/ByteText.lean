import NeoListing.Base64
import NeoListing.Hex
import NeoListing.Proofs.Outcome
import NeoListing.Proofs.Text.Characters

/-! # Bytes written as text

Hexadecimal and Base64 text of bytes reads as these bytes, hexadecimal digits in either case. Data
characters of Base64 without padding are read just if they make up complete groups.
-/

namespace NeoListing

theorem Text.chars_map_scalar (cs : List Char) : Text.chars (cs.map .scalar) = cs := by
  have hc : CodePoint.char? ∘ CodePoint.scalar = some := rfl
  rw [Text.chars, List.filterMap_map, hc, List.filterMap_some]

theorem Text.ascii_of_mem_map_scalar {cs : List Char} (h : ∀ c ∈ cs, c.toNat < 128) :
    ∀ p ∈ cs.map CodePoint.scalar, decide (128 ≤ p.toNat) = false := by
  intro p hp
  obtain ⟨c, hc, rfl⟩ := List.mem_map.mp hp
  exact decide_eq_false (Nat.not_le.mpr (h c hc))

theorem Text.toNat_le_toNat {c d : Char} (h : c ≤ d) : c.toNat ≤ d.toNat :=
  UInt32.le_iff_toNat_le.mp h

theorem Bytes.ofNat_toNat {b : UInt8} {n : Nat} (h : n = b.toNat) : UInt8.ofNat n = b := by
  rw [h, UInt8.ofNat_toNat]

namespace Hex

theorem isBlank_eq_false_of_digit? {c : Char} {v : Nat} (h : digit? c = some v) :
    isBlank c = false := by
  have hd : ∀ c : Char, isBlank c = true → digit? c = none := by
    intro c hb
    simp only [isBlank, Bool.or_eq_true, beq_iff_eq, Bool.and_eq_true, decide_eq_true_eq] at hb
    rcases hb with rfl | ⟨-, hr⟩
    · rfl
    · have hn : ∀ d : Char, '\r' < d → ¬d ≤ c := fun d hd hc =>
        absurd (lt_of_lt_of_le hd (hc.trans hr)) (lt_irrefl _)
      simp [digit?, hn '0' (by decide), hn 'a' (by decide), hn 'A' (by decide)]
  cases hb : isBlank c with
  | false => rfl
  | true => rw [hd c hb] at h; cases h

/-- One pair of digits in front of others. -/
theorem pairs_cons_cons {c d : Char} {b : UInt8} (hc : digit? c = some (b.toNat / 16))
    (hd : digit? d = some (b.toNat % 16)) (position : Nat) (rest : List Char) :
    pairs position (c :: d :: rest) = (pairs (position + 2) rest).map (b :: ·) := by
  have hb : UInt8.ofNat (16 * (b.toNat / 16) + b.toNat % 16) = b := Bytes.ofNat_toNat (by omega)
  rw [pairs.eq_def]
  simp only [isBlank_eq_false_of_digit? hc, Bool.false_eq_true, if_false, hc, hd, hb]

theorem digit?_digitChar : ∀ n < 16, digit? (Nat.digitChar n) = some n := by
  decide

theorem digit?_toLower (c : Char) : digit? c.toLower = digit? c := by
  by_cases hu : c.isUpper = true
  · have hall : ∀ n < 26, digit? (Char.ofNat (65 + n)).toLower = digit? (Char.ofNat (65 + n)) := by
      decide
    have hc : 65 ≤ c.toNat ∧ c.toNat ≤ 90 := by
      simpa [Char.isUpper, UInt32.le_iff_toNat_le] using hu
    have he : Char.ofNat (65 + (c.toNat - 65)) = c := by
      rw [Nat.add_sub_cancel' hc.1, Char.ofNat_toNat]
    have hn := hall (c.toNat - 65) (by omega)
    rwa [he] at hn
  · rw [Char.toLower_eq_of_not_isUpper hu]

def Spells (cs : List Char) (bs : Bytes) : Prop := cs.map Char.toLower = bs.flatMap Bytes.hexPair

instance (cs : List Char) (bs : Bytes) : Decidable (Spells cs bs) :=
  inferInstanceAs (Decidable (_ = _))

theorem spells_hex (bs : Bytes) : Spells (Bytes.hex bs).toList bs := by
  have hall : ∀ n < 16, (Nat.digitChar n).toLower = Nat.digitChar n := by decide
  rw [Spells, Bytes.hex, String.toList_ofList, List.map_flatMap]
  refine List.flatMap_congr fun b _ => ?_
  obtain ⟨hh, hl⟩ := Bytes.nibbles_lt b
  rw [Bytes.hexPair, List.map_cons, List.map_cons, List.map_nil, hall _ hh, hall _ hl]

section Spells

variable {cs : List Char} {b : UInt8} {bs : Bytes}

theorem Spells.exists_pair (h : Spells cs (b :: bs)) :
    ∃ c d rest, cs = c :: d :: rest ∧ digit? c = some (b.toNat / 16) ∧
      digit? d = some (b.toNat % 16) ∧ Spells rest bs := by
  obtain ⟨hh, hl⟩ := Bytes.nibbles_lt b
  rw [Spells, List.flatMap_cons, Bytes.hexPair, List.cons_append, List.cons_append,
    List.nil_append, List.map_eq_cons_iff] at h
  obtain ⟨c, cs', rfl, hc, h⟩ := h
  obtain ⟨d, rest, rfl, hd, h⟩ := List.map_eq_cons_iff.mp h
  exact ⟨c, d, rest, rfl, by rw [← digit?_toLower, hc, digit?_digitChar _ hh],
    by rw [← digit?_toLower, hd, digit?_digitChar _ hl], h⟩

theorem Spells.digits (h : Spells cs bs) : ∀ c ∈ cs, ∃ v, digit? c = some v := by
  induction bs generalizing cs with
  | nil =>
    rw [List.map_eq_nil_iff.mp h]
    exact List.forall_mem_nil _
  | cons b bs ih =>
    obtain ⟨c, d, rest, rfl, hc, hd, hrest⟩ := h.exists_pair
    exact List.forall_mem_cons.mpr ⟨⟨_, hc⟩, List.forall_mem_cons.mpr ⟨⟨_, hd⟩, ih hrest⟩⟩

theorem Spells.length_eq (h : Spells cs bs) : cs.length = 2 * bs.length := by
  induction bs generalizing cs with
  | nil =>
    rw [List.map_eq_nil_iff.mp h]
    rfl
  | cons b bs ih =>
    obtain ⟨c, d, rest, rfl, -, -, hrest⟩ := h.exists_pair
    have hlen := ih hrest
    simp only [List.length_cons]
    omega

theorem Spells.pairs_eq (h : Spells cs bs) (position : Nat) : pairs position cs = .ok bs := by
  induction bs generalizing cs position with
  | nil =>
    rw [List.map_eq_nil_iff.mp h]
    rfl
  | cons b bs ih =>
    obtain ⟨c, d, rest, rfl, hc, hd, hrest⟩ := h.exists_pair
    rw [pairs_cons_cons hc hd, ih hrest]
    rfl

end Spells

theorem toNat_of_digit? {c : Char} {v : Nat} (h : digit? c = some v) :
    48 ≤ c.toNat ∧ c.toNat ≤ 57 ∨ 97 ≤ c.toNat ∧ c.toNat ≤ 102 ∨
      65 ≤ c.toNat ∧ c.toNat ≤ 70 := by
  unfold digit? at h
  split at h
  next hc => exact .inl ⟨Text.toNat_le_toNat hc.1, Text.toNat_le_toNat hc.2⟩
  next =>
    split at h
    next hc => exact .inr (.inl ⟨Text.toNat_le_toNat hc.1, Text.toNat_le_toNat hc.2⟩)
    next =>
      split at h
      next hc => exact .inr (.inr ⟨Text.toNat_le_toNat hc.1, Text.toNat_le_toNat hc.2⟩)
      next => cases h

theorem decode_eq_pairs {cs : List Char} (h : ∀ c ∈ cs, c.toNat < 128) :
    decode (cs.map .scalar) = pairs 0 cs := by
  have hf : (cs.map CodePoint.scalar).findIdx? (fun p => 128 ≤ p.toNat) = none :=
    List.findIdx?_eq_none_iff.mpr (Text.ascii_of_mem_map_scalar h)
  rw [decode, hf, Text.chars_map_scalar]

theorem Spells.decode_eq {cs : List Char} {bs : Bytes} (h : Spells cs bs) :
    decode (cs.map .scalar) = .ok bs := by
  rw [decode_eq_pairs, h.pairs_eq]
  intro c hc
  obtain ⟨v, hv⟩ := h.digits c hc
  have hn := toNat_of_digit? hv
  omega

theorem decode_hex (bs : Bytes) : decode (Bytes.hex bs) = .ok bs := (spells_hex bs).decode_eq

end Hex

namespace Base64

theorem value?_digit : ∀ n < 64, value? (digit n) = some n ∧ digit n ≠ '=' := by
  decide

theorem collect_value {c : Char} {v : Nat} (h : value? c = some v) (count pads : Nat)
    (rest : List Char) :
    collect count pads false (c :: rest) = (collect (count + 1) 0 false rest).map (v :: ·) := by
  have he : c ≠ '=' := by
    rintro rfl
    cases h
  rw [collect, if_neg he, h]
  rfl

theorem collect_digit {n : Nat} (h : n < 64) (count pads : Nat) (rest : List Char) :
    collect count pads false (digit n :: rest) =
      (collect (count + 1) 0 false rest).map (n :: ·) :=
  collect_value (value?_digit n h).1 count pads rest

/-- Reading starts at the boundary of a group, where the padding of a last group counts. -/
theorem collect_encodeList (bs : Bytes) {count : Nat} (h : count % 4 = 0) :
    ∃ values, collect count 0 false (encodeList bs) = .ok values ∧ bytesOf values = bs := by
  fun_induction encodeList bs generalizing count with
  | case1 a b c rest ih =>
    have ha := a.toNat_lt
    have hb := b.toNat_lt
    have hc := c.toNat_lt
    obtain ⟨values, hv, hr⟩ := ih (show (count + 4) % 4 = 0 by omega)
    rw [collect_digit (by omega), collect_digit (by omega), collect_digit (by omega),
      collect_digit (by omega), hv]
    refine ⟨_, rfl, ?_⟩
    rw [bytesOf, hr, Bytes.ofNat_toNat (b := a) (by omega), Bytes.ofNat_toNat (b := b) (by omega),
      Bytes.ofNat_toNat (b := c) (by omega)]
  | case2 a b =>
    have ha := a.toNat_lt
    have hb := b.toNat_lt
    have hm : (count + 3) % 4 = 3 := by omega
    have hp : collect (count + 3) 0 false ['='] = .ok [] := by simp [collect, hm]
    rw [collect_digit (by omega), collect_digit (by omega), collect_digit (by omega), hp]
    refine ⟨_, rfl, ?_⟩
    rw [bytesOf, Bytes.ofNat_toNat (b := a) (by omega), Bytes.ofNat_toNat (b := b) (by omega)]
  | case3 a =>
    have ha := a.toNat_lt
    have hm : (count + 2) % 4 = 2 := by omega
    have hp : collect (count + 2) 0 false ['=', '='] = .ok [] := by simp [collect, hm]
    rw [collect_digit (by omega), collect_digit (by omega), hp]
    refine ⟨_, rfl, ?_⟩
    rw [bytesOf, Bytes.ofNat_toNat (b := a) (by omega)]
  | case4 => exact ⟨[], by simp [collect, h], rfl⟩

theorem length_bytesOf (vs : List Nat) : (bytesOf vs).length = 3 * vs.length / 4 := by
  fun_induction bytesOf vs with
  | case1 a b c d rest ih =>
    simp only [List.length_cons, ih]
    omega
  | case2 => simp
  | case3 => simp
  | case4 vs h₄ h₃ h₂ =>
    rcases vs with _ | ⟨a, _ | ⟨b, _ | ⟨c, _ | ⟨d, rest⟩⟩⟩⟩
    · simp
    · simp
    · exact absurd rfl (h₂ a b)
    · exact absurd rfl (h₃ a b c)
    · exact absurd rfl (h₄ a b c d rest)

/-- Data characters are visible ASCII. -/
theorem toNat_of_value? {c : Char} {v : Nat} (h : value? c = some v) :
    33 ≤ c.toNat ∧ c.toNat < 128 := by
  have hrange : ∀ {d e : Char}, 33 ≤ d.toNat → e.toNat < 128 → d ≤ c ∧ c ≤ e →
      33 ≤ c.toNat ∧ c.toNat < 128 := fun hd he hc =>
    ⟨hd.trans (Text.toNat_le_toNat hc.1), (Text.toNat_le_toNat hc.2).trans_lt he⟩
  unfold value? at h
  split at h
  next hc => exact hrange (by decide) (by decide) hc
  next =>
    split at h
    next hc => exact hrange (by decide) (by decide) hc
    next =>
      split at h
      next hc => exact hrange (by decide) (by decide) hc
      next =>
        split at h
        next hc => exact hc ▸ by decide
        next =>
          split at h
          next hc => exact hc ▸ by decide
          next => cases h

theorem decode_eq_collect {cs : List Char} (ha : ∀ c ∈ cs, c.toNat < 128)
    (hh : cs.head? ≠ some '=') :
    decode (cs.map .scalar) = (collect 0 0 false cs).map bytesOf := by
  have hany : (cs.map CodePoint.scalar).any (fun p => 128 ≤ p.toNat) = false := by
    rw [List.any_eq_false]
    intro p hp
    rw [Text.ascii_of_mem_map_scalar ha p hp]
    exact Bool.false_ne_true
  have hhead : (cs.map CodePoint.scalar).head? ≠ some (.scalar '=') := by
    rw [List.head?_map]
    simpa using hh
  rw [decode, hany, if_neg Bool.false_ne_true, if_neg hhead, Text.chars_map_scalar]

section Values

variable {cs : List Char}

/-- Data characters alone are read just if they make up complete groups. -/
theorem exists_collect_of_values (h : ∀ c ∈ cs, ∃ v, value? c = some v) (count pads : Nat) :
    ∃ vs, vs.length = cs.length ∧
      collect count pads false cs = (collect (count + cs.length) 0 false []).map (vs ++ ·) := by
  induction cs generalizing count pads with
  | nil =>
    refine ⟨[], rfl, ?_⟩
    rw [List.length_nil, Nat.add_zero, collect, collect]
    split <;> rfl
  | cons c cs ih =>
    obtain ⟨⟨v, hv⟩, hcs⟩ := List.forall_mem_cons.mp h
    obtain ⟨vs, hl, he⟩ := ih hcs (count + 1) 0
    refine ⟨v :: vs, congrArg (· + 1) hl, ?_⟩
    rw [collect_value hv, he, List.length_cons, Nat.add_assoc, Nat.add_comm 1]
    cases collect (count + (cs.length + 1)) 0 false [] <;> rfl

theorem exists_decode_of_values (h : ∀ c ∈ cs, ∃ v, value? c = some v) :
    ∃ vs, vs.length = cs.length ∧ decode (cs.map .scalar) =
      (collect cs.length 0 false []).map fun more => bytesOf (vs ++ more) := by
  obtain ⟨vs, hl, he⟩ := exists_collect_of_values h 0 0
  refine ⟨vs, hl, ?_⟩
  rw [decode_eq_collect, he, Nat.zero_add]
  · cases collect cs.length 0 false [] <;> rfl
  · intro c hc
    obtain ⟨v, hv⟩ := h c hc
    exact (toNat_of_value? hv).2
  · intro hh
    obtain ⟨v, hv⟩ := h '=' (List.mem_of_head? hh)
    cases hv

theorem exists_decode_of_complete (h : ∀ c ∈ cs, ∃ v, value? c = some v)
    (hl : cs.length % 4 = 0) :
    ∃ bs, decode (cs.map .scalar) = .ok bs ∧ 4 * bs.length = 3 * cs.length := by
  obtain ⟨vs, hv, he⟩ := exists_decode_of_values h
  refine ⟨bytesOf vs, ?_, ?_⟩
  · rw [he, collect, hl]
    exact congrArg (fun vs => Except.ok (bytesOf vs)) (List.append_nil vs)
  · rw [length_bytesOf, hv]
    omega

theorem decode_of_half (h : ∀ c ∈ cs, ∃ v, value? c = some v) (hl : cs.length % 4 = 2) :
    decode (cs.map .scalar) = .error .incompletePadding := by
  obtain ⟨vs, -, he⟩ := exists_decode_of_values h
  rw [he, collect, hl]
  rfl

end Values

theorem value?_or_pad_of_mem_encodeList {bs : Bytes} {c : Char} (h : c ∈ encodeList bs) :
    (∃ v, value? c = some v) ∨ c = '=' := by
  have hd : ∀ n < 64, ∃ v, value? (digit n) = some v := fun n hn => ⟨n, (value?_digit n hn).1⟩
  fun_induction encodeList bs with
  | case1 a b d rest ih =>
    have ha := a.toNat_lt
    have hb := b.toNat_lt
    have hc := d.toNat_lt
    simp only [List.mem_cons] at h
    rcases h with rfl | rfl | rfl | rfl | h
    · exact .inl (hd _ (by omega))
    · exact .inl (hd _ (by omega))
    · exact .inl (hd _ (by omega))
    · exact .inl (hd _ (by omega))
    · exact ih h
  | case2 a b =>
    have ha := a.toNat_lt
    have hb := b.toNat_lt
    simp only [List.mem_cons, List.not_mem_nil, or_false] at h
    rcases h with rfl | rfl | rfl | rfl
    · exact .inl (hd _ (by omega))
    · exact .inl (hd _ (by omega))
    · exact .inl (hd _ (by omega))
    · exact .inr rfl
  | case3 a =>
    have ha := a.toNat_lt
    simp only [List.mem_cons, List.not_mem_nil, or_false] at h
    rcases h with rfl | rfl | rfl | rfl
    · exact .inl (hd _ (by omega))
    · exact .inl (hd _ (by omega))
    · exact .inr rfl
    · exact .inr rfl
  | case4 => cases h

theorem toNat_of_mem_encodeList {bs : Bytes} {c : Char} (h : c ∈ encodeList bs) :
    33 ≤ c.toNat ∧ c.toNat < 128 := by
  rcases value?_or_pad_of_mem_encodeList h with ⟨v, hv⟩ | rfl
  · exact toNat_of_value? hv
  · decide

theorem head?_encodeList_ne (bs : Bytes) : (encodeList bs).head? ≠ some '=' := by
  have hd : ∀ a : UInt8, some (digit (a.toNat / 4)) ≠ some '=' := by
    intro a h
    have ha := a.toNat_lt
    exact (value?_digit (a.toNat / 4) (by omega)).2 (Option.some.inj h)
  fun_cases encodeList bs with
  | case1 a _ _ _ => exact hd a
  | case2 a _ => exact hd a
  | case3 a => exact hd a
  | case4 => simp

theorem decode_encode (bs : Bytes) : decode (encode bs) = .ok bs := by
  obtain ⟨values, hv, hb⟩ := collect_encodeList bs (show 0 % 4 = 0 from rfl)
  rw [Text.ofString, encode, String.toList_ofList,
    decode_eq_collect (fun c hc => (toNat_of_mem_encodeList hc).2) (head?_encodeList_ne bs), hv]
  exact congrArg Except.ok hb

end Base64

end NeoListing

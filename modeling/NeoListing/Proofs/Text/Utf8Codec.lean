import Mathlib
import NeoListing.Proofs.Outcome
import NeoListing.Text.Utf8

/-! # UTF-8 there and back

A step reads a character exactly where its encoding stands, so strict decoding accepts the
encodings of texts and nothing else, and lossy decoding keeps them.
-/

namespace NeoListing.Text.Utf8

def IsTail (b : UInt8) : Prop := 0x80 ≤ b.toNat ∧ b.toNat ≤ 0xBF

/-- The well-formed sequences of bytes with the scalar values that they stand for. -/
inductive Sequence : Bytes → Nat → Prop where
  | one {a : UInt8} (ha : a.toNat < 0x80) : Sequence [a] a.toNat
  | two {a b : UInt8} (ha : 0xC2 ≤ a.toNat ∧ a.toNat < 0xE0) (hb : IsTail b) :
    Sequence [a, b] (64 * (a.toNat - 0xC0) + (b.toNat - 0x80))
  | three {a b c : UInt8} (ha : 0xE0 ≤ a.toNat ∧ a.toNat < 0xF0) (hb : IsTail b)
    (hlow : a.toNat = 0xE0 → 0xA0 ≤ b.toNat) (hhigh : a.toNat = 0xED → b.toNat ≤ 0x9F)
    (hc : IsTail c) :
    Sequence [a, b, c]
      (64 * (64 * (a.toNat - 0xE0) + (b.toNat - 0x80)) + (c.toNat - 0x80))
  | four {a b c d : UInt8} (ha : 0xF0 ≤ a.toNat ∧ a.toNat < 0xF5) (hb : IsTail b)
    (hlow : a.toNat = 0xF0 → 0x90 ≤ b.toNat) (hhigh : a.toNat = 0xF4 → b.toNat ≤ 0x8F)
    (hc : IsTail c) (hd : IsTail d) :
    Sequence [a, b, c, d]
      (64 * (64 * (64 * (a.toNat - 0xF0) + (b.toNat - 0x80)) + (c.toNat - 0x80))
        + (d.toNat - 0x80))

/-! ## Steps read sequences -/

theorem lead?_eq_some_iff {n : Nat} {l : Lead} :
    lead? n = some l ↔
      (n < 0x80 ∧ l = ⟨0, 0, 0, n⟩) ∨
      ((0xC2 ≤ n ∧ n < 0xE0) ∧ l = ⟨1, 0x80, 0xBF, n - 0xC0⟩) ∨
      ((0xE0 ≤ n ∧ n < 0xF0) ∧ l = ⟨2, if n = 0xE0 then 0xA0 else 0x80,
        if n = 0xED then 0x9F else 0xBF, n - 0xE0⟩) ∨
      ((0xF0 ≤ n ∧ n < 0xF5) ∧ l = ⟨3, if n = 0xF0 then 0x90 else 0x80,
        if n = 0xF4 then 0x8F else 0xBF, n - 0xF0⟩) := by
  unfold lead?
  grind

variable {low high read value count : Nat} {bytes : Bytes} {c : Char} {more : Nat}

theorem continuation_zero_eq_scalar_iff :
    continuation low high read value 0 bytes = .scalar c more ↔
      c = Char.ofNat value ∧ more = read := by
  simp only [continuation, Step.scalar.injEq]
  tauto

theorem continuation_succ_eq_scalar_iff :
    continuation low high read value (count + 1) bytes = .scalar c more ↔
      ∃ b rest, bytes = b :: rest ∧ (low ≤ b.toNat ∧ b.toNat ≤ high) ∧
        continuation 0x80 0xBF (read + 1) (64 * value + (b.toNat - 0x80)) count rest =
          .scalar c more := by
  cases bytes with
  | nil => simp [continuation]
  | cons b rest =>
    simp only [continuation]
    by_cases h : low ≤ b.toNat ∧ b.toNat ≤ high
    · simp [h]
    · simp [h]

theorem sequence_of_step {b : UInt8} {rest : Bytes} (h : step b rest = .scalar c more) :
    ∃ seq tail v, Sequence (b :: seq) v ∧ rest = seq ++ tail ∧ more = seq.length ∧
      c = Char.ofNat v := by
  unfold step at h
  cases hl : lead? b.toNat with
  | none =>
    rw [hl] at h
    cases h
  | some l =>
    rw [hl] at h
    rcases lead?_eq_some_iff.mp hl with ⟨ha, rfl⟩ | ⟨ha, rfl⟩ | ⟨ha, rfl⟩ | ⟨ha, rfl⟩ <;>
      dsimp only at h
    · obtain ⟨hc, hm⟩ := continuation_zero_eq_scalar_iff.mp h
      exact ⟨[], rest, _, .one ha, rfl, hm, hc⟩
    · obtain ⟨b₁, r₁, rfl, hb₁, h⟩ := continuation_succ_eq_scalar_iff.mp h
      obtain ⟨hc, hm⟩ := continuation_zero_eq_scalar_iff.mp h
      exact ⟨[b₁], r₁, _, .two ha hb₁, rfl, hm, hc⟩
    · obtain ⟨b₁, r₁, rfl, hb₁, h⟩ := continuation_succ_eq_scalar_iff.mp h
      obtain ⟨b₂, r₂, rfl, hb₂, h⟩ := continuation_succ_eq_scalar_iff.mp h
      obtain ⟨hc, hm⟩ := continuation_zero_eq_scalar_iff.mp h
      refine ⟨[b₁, b₂], r₂, _, .three ha ?_ ?_ ?_ hb₂, rfl, hm, hc⟩
      · constructor <;> grind
      · intro he
        grind
      · intro he
        grind
    · obtain ⟨b₁, r₁, rfl, hb₁, h⟩ := continuation_succ_eq_scalar_iff.mp h
      obtain ⟨b₂, r₂, rfl, hb₂, h⟩ := continuation_succ_eq_scalar_iff.mp h
      obtain ⟨b₃, r₃, rfl, hb₃, h⟩ := continuation_succ_eq_scalar_iff.mp h
      obtain ⟨hc, hm⟩ := continuation_zero_eq_scalar_iff.mp h
      refine ⟨[b₁, b₂, b₃], r₃, _, .four ha ?_ ?_ ?_ hb₂ hb₃, rfl, hm, hc⟩
      · constructor <;> grind
      · intro he
        grind
      · intro he
        grind

theorem step_of_sequence {b : UInt8} {seq : Bytes} {v : Nat} (h : Sequence (b :: seq) v)
    (tail : Bytes) : step b (seq ++ tail) = .scalar (Char.ofNat v) seq.length := by
  unfold step
  cases h with
  | one ha =>
    rw [lead?_eq_some_iff.mpr (.inl ⟨ha, rfl⟩)]
    rfl
  | two ha hb =>
    rw [lead?_eq_some_iff.mpr (.inr (.inl ⟨ha, rfl⟩))]
    exact continuation_succ_eq_scalar_iff.mpr ⟨_, tail, rfl, hb, rfl⟩
  | three ha hb hlow hhigh hc =>
    rw [lead?_eq_some_iff.mpr (.inr (.inr (.inl ⟨ha, rfl⟩)))]
    refine continuation_succ_eq_scalar_iff.mpr ⟨_, _, rfl, ?_,
      continuation_succ_eq_scalar_iff.mpr ⟨_, tail, rfl, hc, rfl⟩⟩
    obtain ⟨hb, hb'⟩ := hb
    constructor <;> grind
  | four ha hb hlow hhigh hc hd =>
    rw [lead?_eq_some_iff.mpr (.inr (.inr (.inr ⟨ha, rfl⟩)))]
    refine continuation_succ_eq_scalar_iff.mpr ⟨_, _, rfl, ?_,
      continuation_succ_eq_scalar_iff.mpr ⟨_, _, rfl, hc,
        continuation_succ_eq_scalar_iff.mpr ⟨_, tail, rfl, hd, rfl⟩⟩⟩
    obtain ⟨hb, hb'⟩ := hb
    constructor <;> grind

/-! ## Sequences are encodings -/

theorem Sequence.isValidChar {bs : Bytes} {v : Nat} (h : Sequence bs v) : v.isValidChar := by
  unfold Nat.isValidChar
  cases h with
  | one ha => omega
  | two ha hb =>
    obtain ⟨hb, hb'⟩ := hb
    omega
  | three ha hb hlow hhigh hc =>
    obtain ⟨hb, hb'⟩ := hb
    obtain ⟨hc, hc'⟩ := hc
    omega
  | four ha hb hlow hhigh hc hd =>
    obtain ⟨hb, hb'⟩ := hb
    obtain ⟨hc, hc'⟩ := hc
    obtain ⟨hd, hd'⟩ := hd
    omega

theorem ofNat_eq_of_toNat {b : UInt8} {n : Nat} (h : b.toNat = n) : UInt8.ofNat n = b := by
  rw [← h, UInt8.ofNat_toNat]

theorem Sequence.encode_eq {bs : Bytes} {v : Nat} (h : Sequence bs v) :
    String.utf8EncodeChar (Char.ofNat v) = bs := by
  have hv : (Char.ofNat v).val.toNat = v := by
    have hn := Char.toNat_ofNat v
    rwa [if_pos h.isValidChar] at hn
  unfold String.utf8EncodeChar
  simp only [hv]
  cases h with
  | one ha =>
    rw [if_pos (by omega), UInt8.ofNat_toNat]
  | two ha hb =>
    obtain ⟨hb, hb'⟩ := hb
    rw [if_neg (by omega), if_pos (by omega)]
    simp only [List.cons.injEq, and_true]
    refine ⟨ofNat_eq_of_toNat ?_, ofNat_eq_of_toNat ?_⟩ <;> omega
  | three ha hb hlow hhigh hc =>
    obtain ⟨hb, hb'⟩ := hb
    obtain ⟨hc, hc'⟩ := hc
    rw [if_neg (by omega), if_neg (by omega), if_pos (by omega)]
    simp only [List.cons.injEq, and_true]
    refine ⟨ofNat_eq_of_toNat ?_, ofNat_eq_of_toNat ?_, ofNat_eq_of_toNat ?_⟩ <;> omega
  | four ha hb hlow hhigh hc hd =>
    obtain ⟨hb, hb'⟩ := hb
    obtain ⟨hc, hc'⟩ := hc
    obtain ⟨hd, hd'⟩ := hd
    rw [if_neg (by omega), if_neg (by omega), if_neg (by omega)]
    simp only [List.cons.injEq, and_true]
    refine ⟨ofNat_eq_of_toNat ?_, ofNat_eq_of_toNat ?_, ofNat_eq_of_toNat ?_,
      ofNat_eq_of_toNat ?_⟩ <;> omega

theorem Sequence.of_eq {bs : Bytes} {v w : Nat} (h : Sequence bs v) (hv : v = w) :
    Sequence bs w := hv ▸ h

theorem toNat_ofNat_of_lt {n : Nat} (h : n < 256) : (UInt8.ofNat n).toNat = n := by
  rw [UInt8.toNat_ofNat', Nat.mod_eq_of_lt h]

/-! The digits of a scalar value in base 64 are its bytes less their marks. -/

section Digits

variable {v : Nat}

theorem sequence_one (h : v ≤ 0x7F) : Sequence [UInt8.ofNat v] v := by
  have ha : (UInt8.ofNat v).toNat = v := toNat_ofNat_of_lt (by omega)
  exact (Sequence.one (by omega)).of_eq ha

theorem sequence_two (hl : 0x80 ≤ v) (hu : v ≤ 0x7FF) :
    Sequence [UInt8.ofNat (v / 64 % 32 + 192), UInt8.ofNat (v % 64 + 128)] v := by
  have ha : (UInt8.ofNat (v / 64 % 32 + 192)).toNat = v / 64 % 32 + 192 :=
    toNat_ofNat_of_lt (by omega)
  have hb : (UInt8.ofNat (v % 64 + 128)).toNat = v % 64 + 128 := toNat_ofNat_of_lt (by omega)
  refine (Sequence.two ⟨?_, ?_⟩ ⟨?_, ?_⟩).of_eq ?_ <;> omega

theorem sequence_three (hl : 0x800 ≤ v) (hu : v ≤ 0xFFFF)
    (hvalid : v < 0xD800 ∨ 0xDFFF < v) :
    Sequence [UInt8.ofNat (v / 4096 % 16 + 224), UInt8.ofNat (v / 64 % 64 + 128),
      UInt8.ofNat (v % 64 + 128)] v := by
  have ha : (UInt8.ofNat (v / 4096 % 16 + 224)).toNat = v / 4096 % 16 + 224 :=
    toNat_ofNat_of_lt (by omega)
  have hb : (UInt8.ofNat (v / 64 % 64 + 128)).toNat = v / 64 % 64 + 128 :=
    toNat_ofNat_of_lt (by omega)
  have hc : (UInt8.ofNat (v % 64 + 128)).toNat = v % 64 + 128 := toNat_ofNat_of_lt (by omega)
  refine (Sequence.three ⟨?_, ?_⟩ ⟨?_, ?_⟩ ?_ ?_ ⟨?_, ?_⟩).of_eq ?_ <;> omega

theorem sequence_four (hl : 0x10000 ≤ v) (hu : v < 0x110000) :
    Sequence [UInt8.ofNat (v / 262144 % 8 + 240), UInt8.ofNat (v / 4096 % 64 + 128),
      UInt8.ofNat (v / 64 % 64 + 128), UInt8.ofNat (v % 64 + 128)] v := by
  have ha : (UInt8.ofNat (v / 262144 % 8 + 240)).toNat = v / 262144 % 8 + 240 :=
    toNat_ofNat_of_lt (by omega)
  have hb : (UInt8.ofNat (v / 4096 % 64 + 128)).toNat = v / 4096 % 64 + 128 :=
    toNat_ofNat_of_lt (by omega)
  have hc : (UInt8.ofNat (v / 64 % 64 + 128)).toNat = v / 64 % 64 + 128 :=
    toNat_ofNat_of_lt (by omega)
  have hd : (UInt8.ofNat (v % 64 + 128)).toNat = v % 64 + 128 := toNat_ofNat_of_lt (by omega)
  refine (Sequence.four ⟨?_, ?_⟩ ⟨?_, ?_⟩ ?_ ?_ ⟨?_, ?_⟩ ⟨?_, ?_⟩).of_eq ?_ <;> omega

end Digits

theorem sequence_encode (c : Char) : Sequence (String.utf8EncodeChar c) c.toNat := by
  have hvalid : c.val.toNat < 0xD800 ∨ 0xDFFF < c.val.toNat ∧ c.val.toNat < 0x110000 := c.valid
  change Sequence (String.utf8EncodeChar c) c.val.toNat
  unfold String.utf8EncodeChar
  generalize c.val.toNat = v at hvalid ⊢
  dsimp only
  by_cases h₁ : v ≤ 0x7F
  · rw [if_pos h₁]
    exact sequence_one h₁
  · rw [if_neg h₁]
    by_cases h₂ : v ≤ 0x7FF
    · rw [if_pos h₂]
      exact sequence_two (by omega) h₂
    · rw [if_neg h₂]
      by_cases h₃ : v ≤ 0xFFFF
      · rw [if_pos h₃]
        exact sequence_three (by omega) h₃ (by omega)
      · rw [if_neg h₃]
        exact sequence_four (by omega) (by omega)

/-- A step reads a character exactly where its encoding stands. -/
theorem step_eq_scalar_iff {b : UInt8} {rest : Bytes} :
    step b rest = .scalar c more ↔
      ∃ seq tail, String.utf8EncodeChar c = b :: seq ∧ rest = seq ++ tail ∧ more = seq.length := by
  constructor
  · intro h
    obtain ⟨seq, tail, v, hs, hr, hm, rfl⟩ := sequence_of_step h
    exact ⟨seq, tail, hs.encode_eq, hr, hm⟩
  · rintro ⟨seq, tail, he, rfl, rfl⟩
    have hs := sequence_encode c
    rw [he] at hs
    rw [step_of_sequence hs tail, Char.ofNat_toNat]

/-! ## Whole texts -/

theorem decodeFrom_encode_append (position : Nat) (c : Char) (tail : Bytes) :
    decodeFrom position (String.utf8EncodeChar c ++ tail) =
      (decodeFrom (position + (String.utf8EncodeChar c).length) tail).map (c :: ·) := by
  obtain ⟨b, seq, he⟩ := List.exists_cons_of_ne_nil (String.utf8EncodeChar_ne_nil (c := c))
  have hs : step b (seq ++ tail) = .scalar c seq.length :=
    step_eq_scalar_iff.mpr ⟨seq, tail, he, rfl, rfl⟩
  rw [he, List.cons_append, decodeFrom, hs]
  simp only [List.drop_left, List.length_cons]
  rw [Nat.add_assoc, Nat.add_comm 1]

theorem decodeLossy_encode_append (c : Char) (tail : Bytes) :
    decodeLossy (String.utf8EncodeChar c ++ tail) = c :: decodeLossy tail := by
  obtain ⟨b, seq, he⟩ := List.exists_cons_of_ne_nil (String.utf8EncodeChar_ne_nil (c := c))
  have hs : step b (seq ++ tail) = .scalar c seq.length :=
    step_eq_scalar_iff.mpr ⟨seq, tail, he, rfl, rfl⟩
  rw [he, List.cons_append, decodeLossy, hs]
  simp only [List.drop_left]

theorem decodeFrom_eq_ok_iff {position : Nat} {bs : Bytes} {cs : List Char} :
    decodeFrom position bs = .ok cs ↔ bs = cs.flatMap String.utf8EncodeChar := by
  constructor
  · intro h
    fun_induction decodeFrom position bs generalizing cs with
    | case1 =>
      obtain rfl := Except.ok.inj h
      rfl
    | case2 position b rest c more hs ih =>
      obtain ⟨cs', hc, rfl⟩ := Outcome.map_eq_ok_iff.mp h
      obtain ⟨seq, tail, he, rfl, rfl⟩ := step_eq_scalar_iff.mp hs
      have hr := ih hc
      rw [List.drop_left] at hr
      rw [List.flatMap_cons, ← hr, he]
      rfl
    | case3 => cases h
  · rintro rfl
    induction cs generalizing position with
    | nil => rw [List.flatMap_nil, decodeFrom]
    | cons c cs ih =>
      rw [List.flatMap_cons, decodeFrom_encode_append, ih]
      rfl

/-- Strict decoding accepts the encodings of texts and nothing else. -/
theorem decode_eq_ok_iff {bs : Bytes} {s : String} : decode bs = .ok s ↔ bs = encode s := by
  unfold decode encode
  rw [Outcome.map_eq_ok_iff]
  constructor
  · rintro ⟨cs, hd, rfl⟩
    rw [String.toList_ofList]
    exact decodeFrom_eq_ok_iff.mp hd
  · intro h
    exact ⟨s.toList, decodeFrom_eq_ok_iff.mpr h, String.ofList_toList⟩

theorem decodeLossy_flatMap (cs : List Char) :
    decodeLossy (cs.flatMap String.utf8EncodeChar) = cs := by
  induction cs with
  | nil => rw [List.flatMap_nil, decodeLossy]
  | cons c cs ih => rw [List.flatMap_cons, decodeLossy_encode_append, ih]

theorem text_encode (s : String) : text (encode s) = s := by
  rw [text, encode, decodeLossy_flatMap, String.ofList_toList]

end NeoListing.Text.Utf8

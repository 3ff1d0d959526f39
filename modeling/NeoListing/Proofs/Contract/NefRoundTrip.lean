import NeoListing.Proofs.Contract.NefFormat

/-! # Writing contract files

What is written for a contract within the limits of the format is a file of the format, so
parsing gives the contract back.
-/

namespace NeoListing

structure MethodToken.Storable (t : MethodToken) : Prop where
  method : ∃ name : String, t.method = .text name ∧ (Text.Utf8.encode name).length ≤ 32 ∧
    name.toList.head? ≠ some '_'
  parameters : 0 ≤ t.parameters ∧ t.parameters < 65536
  flags : 0 ≤ t.flags ∧ t.flags ≤ 15

structure Nef.Storable (n : Nef) : Prop where
  compiler_length : (Text.Utf8.encode n.compiler).length ≤ 64
  compiler_end : n.compiler.toList.getLast? ≠ some '\x00'
  source_length : (Text.Utf8.encode n.source).length ≤ 256
  tokens_length : n.tokens.length ≤ 128
  tokens : ∀ t ∈ n.tokens, t.Storable
  script_ne_nil : n.script ≠ []
  script_length : n.script.length ≤ 524288

theorem Text.shown_ofString (s : String) : (Text.ofString s).shown = s := by
  have hc : (CodePoint.charOr (Char.ofNat 0xFFFD)) ∘ CodePoint.scalar = id := rfl
  rw [Text.shown, Text.ofString, List.map_map, hc, List.map_id, String.ofList_toList]

namespace Text.Utf8

theorem Sequence.eq_zero_of_mem {bs : Bytes} {v : Nat} (h : Sequence bs v) (hz : 0 ∈ bs) :
    v = 0 := by
  have hn : ∀ b : UInt8, 0 < b.toNat → (0 : UInt8) ≠ b := by
    rintro b hb rfl
    exact absurd hb (Nat.lt_irrefl 0)
  cases h with
  | one ha =>
    obtain rfl := List.mem_singleton.mp hz
    rfl
  | two ha hb =>
    have h₁ := hn _ (Nat.lt_of_lt_of_le (by decide) ha.1)
    have h₂ := hn _ (Nat.lt_of_lt_of_le (by decide) hb.1)
    simp [h₁, h₂] at hz
  | three ha hb _ _ hc =>
    have h₁ := hn _ (Nat.lt_of_lt_of_le (by decide) ha.1)
    have h₂ := hn _ (Nat.lt_of_lt_of_le (by decide) hb.1)
    have h₃ := hn _ (Nat.lt_of_lt_of_le (by decide) hc.1)
    simp [h₁, h₂, h₃] at hz
  | four ha hb _ _ hc hd =>
    have h₁ := hn _ (Nat.lt_of_lt_of_le (by decide) ha.1)
    have h₂ := hn _ (Nat.lt_of_lt_of_le (by decide) hb.1)
    have h₃ := hn _ (Nat.lt_of_lt_of_le (by decide) hc.1)
    have h₄ := hn _ (Nat.lt_of_lt_of_le (by decide) hd.1)
    simp [h₁, h₂, h₃, h₄] at hz

theorem getLast?_encode_ne_zero {s : String} (h : s.toList.getLast? ≠ some '\x00') :
    (encode s).getLast? ≠ some 0 := by
  unfold encode
  rcases List.eq_nil_or_concat s.toList with hn | ⟨front, c, hc⟩
  · rw [hn]
    simp
  · rw [hc, List.concat_eq_append, List.flatMap_append, List.flatMap_singleton,
      List.getLast?_append_of_ne_nil _ String.utf8EncodeChar_ne_nil]
    rw [hc, List.concat_eq_append, List.getLast?_append_of_ne_nil _ (List.cons_ne_nil c [])] at h
    intro hz
    have hv : c.toNat = 0 := (sequence_encode c).eq_zero_of_mem (List.mem_of_getLast? hz)
    refine h ?_
    rw [← Char.ofNat_toNat c, hv]
    rfl

end Text.Utf8

namespace Nef

theorem dropPadding_append_replicate {bytes : Bytes} (h : bytes.getLast? ≠ some 0) (k : Nat) :
    dropPadding (bytes ++ List.replicate k 0) = bytes := by
  have hz : ∀ b ∈ List.replicate k (0 : UInt8), (b == 0) = true := by
    intro b hb
    rw [List.eq_of_mem_replicate hb]
    rfl
  have hd : bytes.reverse.dropWhile (· == 0) = bytes.reverse := by
    rw [← List.head?_reverse] at h
    cases hr : bytes.reverse with
    | nil => rfl
    | cons b rest =>
      rw [hr] at h
      have hb : (b == 0) = false := beq_eq_false_iff_ne.mpr (fun he => h (by rw [he]; rfl))
      rw [List.dropWhile_cons, hb]
      rfl
  rw [dropPadding, List.reverse_append, List.reverse_replicate, List.dropWhile_append_of_pos hz, hd,
    List.reverse_reverse]

theorem isLength_lengthBytes {n : Nat} (h : n < Nat.pow 2 64) : IsLength n (lengthBytes n) := by
  unfold lengthBytes
  by_cases h₁ : n < 0xFD
  · rw [if_pos h₁]
    have hb : (UInt8.ofNat (n % 256)).toNat = n := by
      rw [Text.Utf8.toNat_ofNat_of_lt (by omega)]
      omega
    have hs := IsLength.short (UInt8.ofNat (n % 256)) (by omega)
    rwa [hb] at hs
  · rw [if_neg h₁]
    by_cases h₂ : n < Nat.pow 2 16
    · rw [if_pos h₂]
      have hw := IsLength.two (Bytes.ofNatLE 2 n) (Bytes.length_ofNatLE 2 n)
      rwa [Bytes.natLE_ofNatLE h₂] at hw
    · rw [if_neg h₂]
      by_cases h₃ : n < Nat.pow 2 32
      · rw [if_pos h₃]
        have hw := IsLength.four (Bytes.ofNatLE 4 n) (Bytes.length_ofNatLE 4 n)
        rwa [Bytes.natLE_ofNatLE h₃] at hw
      · rw [if_neg h₃]
        have hw := IsLength.eight (Bytes.ofNatLE 8 n) (Bytes.length_ofNatLE 8 n)
        rwa [Bytes.natLE_ofNatLE h] at hw

theorem isCounted_countedBytes {maximum : Nat} (hm : maximum < Nat.pow 2 64) {content : Bytes}
    (h : content.length ≤ maximum) : IsCounted maximum content (countedBytes content) :=
  ⟨lengthBytes content.length, rfl, isLength_lengthBytes (Nat.lt_of_le_of_lt h hm), h⟩

theorem isToken_tokenBytes {t : MethodToken} (h : t.Storable) : IsToken t (tokenBytes t) := by
  obtain ⟨name, hm, hl, hu⟩ := h.method
  obtain ⟨hp, hp'⟩ := h.parameters
  obtain ⟨hf, hf'⟩ := h.flags
  have hflags : (UInt8.ofNat (t.flags.toNat % 256)).toNat = t.flags.toNat := by
    rw [Text.Utf8.toNat_ofNat_of_lt (by omega)]
    omega
  have hparameters : Bytes.natLE (Bytes.ofNatLE 2 t.parameters.toNat) = t.parameters.toNat :=
    Bytes.natLE_ofNatLE (show t.parameters.toNat < 65536 by omega)
  refine ⟨textBytes name, Bytes.ofNatLE 2 t.parameters.toNat, name, if t.returns then 1 else 0,
    UInt8.ofNat (t.flags.toNat % 256), ?_, isCounted_countedBytes (by decide) hl, hu,
    Bytes.length_ofNatLE 2 _, by omega, hm, ?_, ?_, ?_⟩
  · rw [tokenBytes, hm, Json.plain, Text.shown_ofString]
    simp [Bytes.ofNatLE]
  · omega
  · cases t.returns <;> rfl
  · omega

theorem isBody_body {n : Nef} (h : n.Storable) : IsBody n n.body := by
  have hlimit : 524288 < Nat.pow 2 64 := by decide
  have hlength : n.tokens.length < Nat.pow 2 64 := by
    have hl := h.tokens_length
    omega
  refine ⟨compilerBytes n.compiler, textBytes n.source, lengthBytes n.tokens.length,
    countedBytes n.script, n.tokens.map tokenBytes, ?_, ?_, ?_,
    isCounted_countedBytes (by decide) h.source_length, isLength_lengthBytes hlength,
    h.tokens_length, ?_, isCounted_countedBytes hlimit h.script_length, h.script_ne_nil⟩
  · rw [body, List.flatMap_def]
    rfl
  · have hl := h.compiler_length
    simp only [compilerBytes, List.length_append, List.length_replicate, compilerSize]
    omega
  · rw [compilerBytes, dropPadding_append_replicate
      (Text.Utf8.getLast?_encode_ne_zero h.compiler_end), Text.Utf8.text_encode]
  · rw [List.forall₂_map_right_iff, List.forall₂_same]
    intro t ht
    exact isToken_tokenBytes (h.tokens t ht)

/-- The checksum is no part of the body. -/
theorem IsBody.withChecksum {n : Nef} {body : Bytes} (h : IsBody n body) (checksum : Nat) :
    IsBody ⟨n.compiler, n.source, n.tokens, n.script, checksum⟩ body := h

theorem isFile_serialize {n : Nef} (h : n.Storable) :
    IsFile ⟨n.compiler, n.source, n.tokens, n.script, checksumOf n.body⟩ n.serialize :=
  ⟨n.body, rfl, rfl, (isBody_body h).withChecksum (checksumOf n.body)⟩

/-- Parsing undoes writing, up to the checksum, which is computed. -/
theorem parse_serialize {n : Nef} (h : n.Storable) :
    parse n.serialize = .ok ⟨n.compiler, n.source, n.tokens, n.script, checksumOf n.body⟩ :=
  parse_eq_ok_iff.mpr (isFile_serialize h)

def wide : Nef :=
  ⟨String.ofList (List.replicate 64 'c'), String.ofList (List.replicate 253 's'),
    [⟨⟨List.replicate 20 0xAB, rfl⟩, .text "é", 65535, true, 15⟩], List.replicate 65536 0x40, 0⟩

theorem parse_serialize_wide :
    wide.Storable ∧ parse wide.serialize =
      .ok ⟨wide.compiler, wide.source, wide.tokens, wide.script, checksumOf wide.body⟩ := by
  have hs : wide.Storable := by
    have hl : wide.script.length = 65536 := List.length_replicate
    have hone : ∀ k, (Text.Utf8.encode (String.ofList (List.replicate k 's'))).length = k := by
      intro k
      simp [Text.Utf8.encode, List.length_flatMap, String.utf8EncodeChar]
    refine ⟨by decide +kernel, by decide +kernel, (hone 253).trans_le (by decide), by decide, ?_,
      List.ne_nil_of_length_eq_add_one hl, by rw [hl]; decide⟩
    intro t ht
    obtain rfl := List.mem_singleton.mp ht
    exact ⟨⟨"é", rfl, by decide +kernel, by decide +kernel⟩, by decide, by decide⟩
  exact ⟨hs, parse_serialize hs⟩

end Nef

end NeoListing

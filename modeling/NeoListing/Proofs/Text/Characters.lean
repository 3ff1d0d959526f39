import Mathlib
import NeoListing.Bytes
import NeoListing.Text.Basic

/-! # Characters of names and numbers

Text made of characters alone is the text of a string. Names are told to hold no blank by their
stored bytes. Decimal and hexadecimal text is made of letters and digits only, with a sign in
front or dashes between, and bytes written as pairs between dashes can be told apart.
-/

namespace NeoListing

namespace Text

theorem ofString_append (s t : String) : ofString (s ++ t) = ofString s ++ ofString t := by
  simp [ofString]

theorem ofString_inj {s t : String} (h : ofString s = ofString t) : s = t := by
  have hm : Function.Injective CodePoint.scalar := fun a b hab => CodePoint.scalar.inj hab
  exact String.toList_inj.mp (hm.list_map h)

theorem chars?_eq_some_iff {t : Text} {cs : List Char} :
    t.chars? = some cs ↔ t = cs.map CodePoint.scalar := by
  induction t generalizing cs with
  | nil => cases cs <;> simp [chars?]
  | cons c t ih =>
    have hc : chars? (c :: t) = c.char?.bind fun x => (chars? t).map (x :: ·) := by
      simp [chars?, List.mapM_cons, Option.map_eq_bind]
    rw [hc]
    cases c with
    | surrogate index => cases cs <;> simp [CodePoint.char?]
    | scalar x =>
      cases cs with
      | nil => simp [CodePoint.char?]
      | cons y cs => simp [CodePoint.char?, ih, and_comm]

end Text

/-- Whether a text holds neither blanks nor controls of ASCII, by the bytes that store it. -/
def isBlankless (s : String) : Bool :=
  s.toByteArray.data.toList.all (fun b => 32 < b.toNat)

theorem not_mem_of_isBlankless {s : String} (h : isBlankless s = true) {c : Char}
    (hc : c.toNat ≤ 32) : c ∉ s.toList := by
  intro hm
  have hb : UInt8.ofNat c.toNat ∈ s.toList.flatMap String.utf8EncodeChar := by
    refine List.mem_flatMap.mpr ⟨c, hm, ?_⟩
    have hs : c.toNat ≤ 0x7f := by omega
    simp [String.utf8EncodeChar, hs]
  have hd : s.toByteArray.data.toList = s.toList.flatMap String.utf8EncodeChar := by
    rw [← String.utf8Encode_toList, List.utf8Encode, List.data_toByteArray]
  rw [isBlankless, hd] at h
  have hl := List.all_eq_true.mp h _ hb
  simp only [UInt8.toNat_ofNat', decide_eq_true_eq] at hl
  omega

theorem toDigits_isDigit {n : Nat} {c : Char} (h : c ∈ Nat.toDigits 10 n) : c.isDigit = true :=
  Nat.isDigit_of_mem_toDigits (by decide) (by decide) h

theorem isDigit_of_mem_toString_nat {n : Nat} {c : Char} (h : c ∈ (toString n).toList) :
    c.isDigit = true := by
  rw [Nat.toString_eq_repr, Nat.toList_repr] at h
  exact toDigits_isDigit h

theorem toList_toString_int_ne_nil (n : Int) : (toString n).toList ≠ [] := by
  cases n with
  | ofNat n =>
    change n.repr.toList ≠ []
    rw [Nat.toList_repr]
    exact Nat.toDigits_ne_nil
  | negSucc n =>
    change ("-" ++ (n + 1).repr).toList ≠ []
    rw [String.toList_append]
    simp

theorem isDigit_or_dash_of_mem_toString_int {n : Int} {c : Char}
    (h : c ∈ (toString n).toList) : c.isDigit = true ∨ c = '-' := by
  change c ∈ n.repr.toList at h
  rw [Int.repr_eq_if] at h
  split at h
  · exact .inl (toDigits_isDigit (Nat.toList_repr ▸ h))
  · rw [String.toList_append, Nat.toList_repr] at h
    rcases List.mem_append.mp h with h | h
    · exact .inr (List.mem_singleton.mp h)
    · exact .inl (toDigits_isDigit h)

namespace Bytes

theorem digitChar_isAlphanum : ∀ n < 16, (Nat.digitChar n).isAlphanum = true ∧
    (Nat.digitChar n).toUpper.isAlphanum = true := by
  decide

theorem upperDigit_inj : ∀ m < 16, ∀ n < 16,
    (Nat.digitChar m).toUpper = (Nat.digitChar n).toUpper → m = n := by
  decide

theorem nibbles_lt (b : UInt8) : b.toNat / 16 < 16 ∧ b.toNat % 16 < 16 := by
  have hb := b.toNat_lt
  omega

theorem isAlphanum_of_mem_hex {bs : Bytes} {c : Char} (h : c ∈ (hex bs).toList) :
    c.isAlphanum = true := by
  rw [hex, String.toList_ofList, List.mem_flatMap] at h
  obtain ⟨b, -, hc⟩ := h
  obtain ⟨hh, hl⟩ := nibbles_lt b
  simp only [hexPair, List.mem_cons, List.not_mem_nil, or_false] at hc
  rcases hc with rfl | rfl
  · exact (digitChar_isAlphanum _ hh).1
  · exact (digitChar_isAlphanum _ hl).1

theorem toList_upperPair (b : UInt8) : (upperPair b).toList =
    [(Nat.digitChar (b.toNat / 16)).toUpper, (Nat.digitChar (b.toNat % 16)).toUpper] := by
  rw [upperPair, String.toList_ofList]
  rfl

theorem isAlphanum_of_mem_upperPair {b : UInt8} {c : Char} (h : c ∈ (upperPair b).toList) :
    c.isAlphanum = true := by
  obtain ⟨hh, hl⟩ := nibbles_lt b
  simp only [toList_upperPair, List.mem_cons, List.not_mem_nil, or_false] at h
  rcases h with rfl | rfl
  · exact (digitChar_isAlphanum _ hh).2
  · exact (digitChar_isAlphanum _ hl).2

theorem upperPair_inj {a b : UInt8} (h : upperPair a = upperPair b) : a = b := by
  have hc := congrArg String.toList h
  simp only [toList_upperPair, List.cons.injEq, and_true] at hc
  have hh := upperDigit_inj _ (nibbles_lt a).1 _ (nibbles_lt b).1 hc.1
  have hl := upperDigit_inj _ (nibbles_lt a).2 _ (nibbles_lt b).2 hc.2
  apply UInt8.toNat_inj.mp
  omega

theorem toList_dashed (bs : Bytes) :
    (dashed bs).toList = ['-'].intercalate (bs.map (fun b => (upperPair b).toList)) := by
  rw [dashed, String.toList_intercalate, List.map_map]
  rfl

theorem dashed_eq_empty_iff {bs : Bytes} : dashed bs = "" ↔ bs = [] := by
  constructor
  · intro h
    cases bs with
    | nil => rfl
    | cons b bs =>
      have hl := congrArg String.toList h
      rw [toList_dashed] at hl
      cases bs <;> simp [toList_upperPair] at hl
  · rintro rfl
    rfl

theorem isAlphanum_or_dash_of_mem_dashed {bs : Bytes} {c : Char} (h : c ∈ (dashed bs).toList) :
    c.isAlphanum = true ∨ c = '-' := by
  rw [toList_dashed] at h
  induction bs with
  | nil => simp at h
  | cons b bs ih =>
    cases bs with
    | nil =>
      simp only [List.map_cons, List.map_nil, List.intercalate_singleton] at h
      exact .inl (isAlphanum_of_mem_upperPair h)
    | cons b' bs =>
      simp only [List.map_cons, List.intercalate_cons_cons, List.mem_append,
        List.mem_singleton] at h ih
      rcases h with (h | h) | h
      · exact .inl (isAlphanum_of_mem_upperPair h)
      · exact .inr h
      · exact ih h

/-- Dashed text determines its bytes: no pair holds a dash, so the dashes part the pairs. -/
theorem dashed_inj {as bs : Bytes} (h : dashed as = dashed bs) : as = bs := by
  by_cases ha : as = []
  · subst ha
    exact (dashed_eq_empty_iff.mp h.symm).symm
  · have hb : bs ≠ [] := by
      rintro rfl
      exact ha (dashed_eq_empty_iff.mp h)
    have hd : ∀ cs : Bytes, ∀ l ∈ cs.map (fun b => (upperPair b).toList), '-' ∉ l := by
      intro cs l hl hc
      obtain ⟨b, -, rfl⟩ := List.mem_map.mp hl
      exact absurd (isAlphanum_of_mem_upperPair hc) (by decide)
    have hs := congrArg (fun s => s.toList.splitOn '-') h
    simp only [toList_dashed] at hs
    rw [List.splitOn_intercalate '-' (hd as) (by simpa using ha),
      List.splitOn_intercalate '-' (hd bs) (by simpa using hb)] at hs
    refine List.map_injective_iff.mpr ?_ hs
    intro a b hab
    exact upperPair_inj (String.toList_inj.mp hab)

end Bytes

end NeoListing

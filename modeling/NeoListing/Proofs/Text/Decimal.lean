import NeoListing.Proofs.Text.Characters
import NeoListing.Text.Integer

/-! # Numbers in decimal

Which integers can be written, and the value of a row of digits. Leading zeros do not change it, and
of two rows of one length the one that comes first in a dictionary has the smaller value.
-/

namespace NeoListing.Text

def Writable (n : Int) : Prop := n.natAbs < 10 ^ digitLimit

instance (n : Int) : Decidable (Writable n) := inferInstanceAs (Decidable (_ < _))

theorem length_toDigits_le_iff {n : Int} :
    (Nat.toDigits 10 n.natAbs).length ≤ digitLimit ↔ Writable n :=
  Nat.length_toDigits_le_iff (by decide) (by decide)

theorem decimal?_of_writable {n : Int} (h : Writable n) : decimal? n = some (toString n) :=
  if_pos (length_toDigits_le_iff.mpr h)

theorem decimal?_of_not_writable {n : Int} (h : ¬Writable n) : decimal? n = none :=
  if_neg fun hl => h (length_toDigits_le_iff.mp hl)

theorem decimal?_eq_some_iff {n : Int} {s : String} :
    decimal? n = some s ↔ Writable n ∧ s = toString n := by
  by_cases h : Writable n
  · simp [decimal?_of_writable h, h, eq_comm]
  · simp [decimal?_of_not_writable h, h]

theorem decimal?_eq_none_iff {n : Int} : decimal? n = none ↔ ¬Writable n := by
  by_cases h : Writable n
  · simp [decimal?_of_writable h, h]
  · simp [decimal?_of_not_writable h, h]

theorem writable_of_natAbs_le {n : Int} {k : Nat} (h : n.natAbs ≤ k) (hk : k < 10 ^ 99) :
    Writable n := by
  have hpow : 10 ^ 99 ≤ 10 ^ digitLimit := Nat.pow_le_pow_right (by decide) (by decide)
  exact Nat.lt_of_le_of_lt h (Nat.lt_of_lt_of_le hk hpow)

theorem toNat_of_isDigit {c : Char} (h : c.isDigit = true) : 48 ≤ c.toNat ∧ c.toNat ≤ 57 := by
  simpa [Char.isDigit, UInt32.le_iff_toNat_le] using h

theorem digitValue?_of_isDigit {c : Char} (h : c.isDigit = true) :
    digitValue? c = some (c.toNat - '0'.toNat) := by
  have hc := toNat_of_isDigit h
  have hz : digitZeros.find? (fun z => z ≤ c.toNat && c.toNat < z + 10) = some 0x30 := by
    refine List.find?_cons_of_pos ?_
    simp only [Bool.and_eq_true, decide_eq_true_eq]
    omega
  rw [digitValue?, hz]
  rfl

/-- In ASCII the digits of all scripts are the usual ones. -/
theorem digitsValue_eq_ofDigitChars {cs : List Char} (h : ∀ c ∈ cs, c.isDigit = true) :
    digitsValue cs = Nat.ofDigitChars 10 cs 0 := by
  refine List.foldl_ext _ _ 0 fun n c hc => ?_
  rw [digitValue?_of_isDigit (h c hc), Option.getD_some]

theorem digitsValue_toDigits (n : Nat) : digitsValue (Nat.toDigits 10 n) = n := by
  rw [digitsValue_eq_ofDigitChars fun _ hc => toDigits_isDigit hc]
  exact Nat.ofDigitChars_toDigits (by decide) (by decide)

theorem digitsValue_cons {c : Char} {cs : List Char} (h : ∀ d ∈ c :: cs, d.isDigit = true) :
    digitsValue (c :: cs) = 10 ^ cs.length * (c.toNat - '0'.toNat) + digitsValue cs := by
  rw [digitsValue_eq_ofDigitChars h, digitsValue_eq_ofDigitChars (List.forall_mem_cons.mp h).2,
    Nat.ofDigitChars_cons, Nat.mul_zero, Nat.zero_add, Nat.ofDigitChars_eq_ofDigitChars_zero]

theorem digitsValue_lt {cs : List Char} (h : ∀ c ∈ cs, c.isDigit = true) :
    digitsValue cs < 10 ^ cs.length := by
  induction cs with
  | nil => exact Nat.one_pos
  | cons c cs ih =>
    obtain ⟨hc, hcs⟩ := List.forall_mem_cons.mp h
    have hdigit : c.toNat - '0'.toNat ≤ 9 := Nat.sub_le_of_le_add (toNat_of_isDigit hc).2
    calc digitsValue (c :: cs)
        = 10 ^ cs.length * (c.toNat - '0'.toNat) + digitsValue cs := digitsValue_cons h
      _ < 10 ^ cs.length * 9 + 10 ^ cs.length :=
          Nat.add_lt_add_of_le_of_lt (Nat.mul_le_mul_left _ hdigit) (ih hcs)
      _ = 10 ^ (c :: cs).length := by rw [List.length_cons, Nat.pow_succ]; omega

theorem digitsValue_replicate_zero_append (k : Nat) (cs : List Char) :
    digitsValue (List.replicate k '0' ++ cs) = digitsValue cs := by
  induction k with
  | zero => rfl
  | succ k ih =>
    rw [List.replicate_succ, List.cons_append]
    exact ih

/-- The order of texts in a dictionary: the first code points that differ decide. -/
def Before (t u : Text) : Prop := t.map CodePoint.toNat < u.map CodePoint.toNat

instance (t u : Text) : Decidable (Before t u) := inferInstanceAs (Decidable (_ < _))

theorem before_map_scalar {cs ds : List Char} :
    Before (cs.map .scalar) (ds.map .scalar) ↔ cs.map Char.toNat < ds.map Char.toNat := by
  have hs : CodePoint.toNat ∘ CodePoint.scalar = Char.toNat := rfl
  rw [Before, List.map_map, List.map_map, hs]

/-- A larger first digit outweighs all that follows the smaller one. -/
theorem lead_lt {c d : Char} (hc : c.isDigit = true) (h : c.toNat < d.toNat) {k v : Nat}
    (hv : v < 10 ^ k) (w : Nat) :
    10 ^ k * (c.toNat - '0'.toNat) + v < 10 ^ k * (d.toNat - '0'.toNat) + w := by
  have hz : '0'.toNat = 48 := rfl
  have hlow := (toNat_of_isDigit hc).1
  calc 10 ^ k * (c.toNat - '0'.toNat) + v
      < 10 ^ k * (c.toNat - '0'.toNat) + 10 ^ k := Nat.add_lt_add_left hv _
    _ = 10 ^ k * (c.toNat - '0'.toNat + 1) := (Nat.mul_succ _ _).symm
    _ ≤ 10 ^ k * (d.toNat - '0'.toNat) := Nat.mul_le_mul_left _ (by omega)
    _ ≤ 10 ^ k * (d.toNat - '0'.toNat) + w := Nat.le_add_right _ _

theorem map_toNat_lt_iff {cs ds : List Char} (hc : ∀ c ∈ cs, c.isDigit = true)
    (hd : ∀ d ∈ ds, d.isDigit = true) (hl : cs.length = ds.length) :
    cs.map Char.toNat < ds.map Char.toNat ↔ digitsValue cs < digitsValue ds := by
  induction cs generalizing ds with
  | nil =>
    obtain rfl := List.eq_nil_of_length_eq_zero hl.symm
    exact iff_of_false (List.not_lt_nil _) (Nat.lt_irrefl _)
  | cons c cs ih =>
    cases ds with
    | nil => cases hl
    | cons d ds =>
      have hl' : cs.length = ds.length := Nat.succ.inj hl
      obtain ⟨hc₀, hcs⟩ := List.forall_mem_cons.mp hc
      obtain ⟨hd₀, hds⟩ := List.forall_mem_cons.mp hd
      rw [List.map_cons, List.map_cons, List.cons_lt_cons_iff, ih hcs hds hl', digitsValue_cons hc,
        digitsValue_cons hd, ← hl']
      rcases Nat.lt_trichotomy c.toNat d.toNat with hlt | heq | hgt
      · exact iff_of_true (.inl hlt) (lead_lt hc₀ hlt (digitsValue_lt hcs) _)
      · simp only [heq, Nat.lt_irrefl, false_or, true_and, Nat.add_lt_add_iff_left]
      · refine iff_of_false (by omega) (Nat.lt_asymm ?_)
        rw [hl']
        exact lead_lt hd₀ hgt (digitsValue_lt hds) _

end NeoListing.Text

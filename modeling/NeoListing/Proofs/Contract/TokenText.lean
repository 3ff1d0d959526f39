import NeoListing.Contract.MethodToken
import NeoListing.Proofs.Text.Decimal

/-! # Texts of method tokens

A set of call flags goes by names, and any other number by its digits. So the texts of a token are
there just when the numbers in it can be written.
-/

namespace NeoListing

namespace CallFlags

theorem names_lt : ∀ row ∈ names, row.1 < 16 := by decide

/-- A named set within a number lies within its four low bits. -/
theorem le_mod_of_and_eq {n value : Nat} (hlt : value < 16) (h : n &&& value = value) :
    value ≤ n % 16 := by
  calc value = (n &&& value) % 2 ^ 4 := by rw [h, Nat.mod_eq_of_lt hlt]
    _ = n % 2 ^ 4 &&& value % 2 ^ 4 := Nat.and_mod_two_pow
    _ ≤ n % 16 := Nat.and_le_left

/-- What is taken out of a number leaves the bits above the fourth. -/
theorem takeNamed_div {rows : List (Nat × String)} (h : ∀ row ∈ rows, row.1 < 16) (n : Nat)
    (taken : List String) : (takeNamed rows n taken).1 / 16 = n / 16 := by
  fun_induction takeNamed rows n taken with
  | case1 => rfl
  | case2 value name rest n taken hv ih =>
    obtain ⟨hvalue, hrest⟩ := List.forall_mem_cons.mp h
    have hlow := le_mod_of_and_eq hvalue hv.2
    rw [ih hrest]
    omega
  | case3 value name rest n taken hv ih => exact ih (List.forall_mem_cons.mp h).2

theorem text_of_lt {n : Nat} (h : 15 < n) : text n = Text.decimal? n := by
  have hnone : names.get? n = none := by
    refine List.lookup_eq_none_iff.mpr fun row hr => ?_
    have hlt := names_lt row hr
    exact bne_iff_ne.mpr (by omega)
  have hdiv : (takeNamed names.reverse n []).1 / 16 = n / 16 :=
    takeNamed_div (fun row hr => names_lt row (List.mem_reverse.mp hr)) n []
  have hne : (takeNamed names.reverse n []).1 ≠ 0 := by omega
  change text (.ofNat n) = _
  rw [text, hnone]
  exact if_neg hne

theorem text_of_not_set {f : Int} (h : f < 0 ∨ 15 < f) : text f = Text.decimal? f := by
  cases f with
  | ofNat n =>
    have hn : (0 : Int) ≤ .ofNat n := Int.natCast_nonneg n
    exact text_of_lt (Int.ofNat_lt.mp (h.resolve_left (Int.not_lt.mpr hn)))
  | negSucc m => rfl

theorem exists_text_of_set {n : Nat} (h : n < 16) : ∃ s, text n = some s := by
  have hsets : ∀ n < 16, (text (n : Nat)).isSome = true := by decide
  exact Option.isSome_iff_exists.mp (hsets n h)

theorem text_eq_none_iff {f : Int} : text f = none ↔ ¬Text.Writable f := by
  by_cases h : f < 0 ∨ 15 < f
  · rw [text_of_not_set h, Text.decimal?_eq_none_iff]
  · have hw : Text.Writable f := Text.writable_of_natAbs_le (k := 15) (by omega) (by decide)
    obtain ⟨n, rfl⟩ := Int.eq_ofNat_of_zero_le (show 0 ≤ f by omega)
    obtain ⟨s, hs⟩ := exists_text_of_set (n := n) (by omega)
    simp [hs, hw]

end CallFlags

theorem Json.plain?_eq_none_iff {v : Json} : v.plain? = none ↔ ¬v.isWritable = true := by
  unfold Json.plain?
  split
  next h => simp [h]
  next h => simp [h]

theorem Json.eq_plain_of_plain? {v : Json} {t : Text} (h : v.plain? = some t) : t = v.plain := by
  unfold Json.plain? at h
  split at h
  next => exact (Option.some.inj h).symm
  next => cases h

namespace MethodToken

structure Writable (t : MethodToken) : Prop where
  method : t.method.isWritable = true
  parameters : Text.Writable t.parameters
  flags : Text.Writable t.flags

instance (t : MethodToken) : Decidable t.Writable :=
  decidable_of_iff (t.method.isWritable = true ∧ Text.Writable t.parameters ∧ Text.Writable t.flags)
    ⟨fun ⟨hm, hp, hf⟩ => ⟨hm, hp, hf⟩, fun h => ⟨h.method, h.parameters, h.flags⟩⟩

theorem parts?_eq_some_iff {t : MethodToken} {p : Parts} :
    t.parts? = some p ↔
      p.contract = t.hash.contractName ∧ t.method.plain? = some p.method ∧
        t.parametersText = some p.parameters ∧ p.returns = t.returnText ∧
          t.flagsText = some p.flags := by
  simp only [parts?, Option.bind_eq_bind, Option.bind_eq_some_iff, Option.pure_def,
    Option.some.injEq]
  constructor
  · rintro ⟨method, hm, parameters, hp, flags, hf, rfl⟩
    exact ⟨rfl, hm, hp, rfl, hf⟩
  · rintro ⟨hc, hm, hp, hr, hf⟩
    exact ⟨_, hm, _, hp, _, hf, by rw [← hc, ← hr]⟩

theorem parametersText_eq_none_iff {t : MethodToken} :
    t.parametersText = none ↔ ¬Text.Writable t.parameters := by
  rw [parametersText, Option.map_eq_none_iff, Text.decimal?_eq_none_iff]

theorem flagsText_eq_none_iff {t : MethodToken} : t.flagsText = none ↔ ¬Text.Writable t.flags := by
  rw [flagsText, Option.map_eq_none_iff, CallFlags.text_eq_none_iff]

theorem exists_parts_of_writable {t : MethodToken} (h : t.Writable) : ∃ p, t.parts? = some p := by
  obtain ⟨method, hm⟩ :=
    Option.ne_none_iff_exists'.mp fun hn => Json.plain?_eq_none_iff.mp hn h.method
  obtain ⟨parameters, hp⟩ :=
    Option.ne_none_iff_exists'.mp fun hn => parametersText_eq_none_iff.mp hn h.parameters
  obtain ⟨flags, hf⟩ := Option.ne_none_iff_exists'.mp fun hn => flagsText_eq_none_iff.mp hn h.flags
  exact ⟨⟨_, method, parameters, _, flags⟩, parts?_eq_some_iff.mpr ⟨rfl, hm, hp, rfl, hf⟩⟩

theorem writable_of_parts {t : MethodToken} {p : Parts} (h : t.parts? = some p) : t.Writable := by
  obtain ⟨-, hm, hp, -, hf⟩ := parts?_eq_some_iff.mp h
  refine ⟨?_, ?_, ?_⟩
  · by_contra hn
    rw [Json.plain?_eq_none_iff.mpr hn] at hm
    cases hm
  · by_contra hn
    rw [parametersText_eq_none_iff.mpr hn] at hp
    cases hp
  · by_contra hn
    rw [flagsText_eq_none_iff.mpr hn] at hf
    cases hf

theorem parts?_of_not_writable {t : MethodToken} (h : ¬t.Writable) : t.parts? = none := by
  cases hp : t.parts? with
  | none => rfl
  | some p => exact absurd (writable_of_parts hp) h

end MethodToken

end NeoListing

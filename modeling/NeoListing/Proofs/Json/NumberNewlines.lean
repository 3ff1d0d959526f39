import NeoListing.Json.Token
import NeoListing.Proofs.Text.Newlines

/-! # Numbers in text with line endings unified

No part of a number has a line ending in it, and each part is found by looking at its own
characters and one more. So a number is read the same, and ends at the same place.
-/

namespace NeoListing.Json
open Text

/-- What looks at nothing unless the first character is of a class without line endings. -/
theorem congr_of_head {β : Type} {f : List Char → β} {p : Char → Bool} (hr : p '\r' = false)
    (hn : p '\n' = false) (hother : ∀ c rest, p c = false → f (c :: rest) = f [])
    (hin : ∀ c rest, p c = true → f (c :: unifyNewlines rest) = f (c :: rest)) (cs : List Char) :
    f (unifyNewlines cs) = f cs := by
  cases cs with
  | nil => rw [unifyNewlines_nil]
  | cons c cs =>
    by_cases hc : c = '\r'
    · obtain ⟨more, hu, -⟩ := unifyNewlines_return cs
      rw [hc, hu, hother '\n' _ hn, hother '\r' _ hr]
    · rw [unifyNewlines_cons hc]
      cases hp : p c with
      | true => exact hin c cs hp
      | false => rw [hother c _ hp, hother c _ hp]

section Numbers

variable (cs : List Char)

theorem isNegative_unifyNewlines : isNegative (unifyNewlines cs) = isNegative cs := by
  refine congr_of_head (p := (· == '-')) (by decide) (by decide) ?_ ?_ cs
  · intro c rest hc
    unfold isNegative
    split <;> simp_all
  · intro c rest hc
    rw [beq_iff_eq.mp hc]
    rfl

theorem signLength_unifyNewlines : signLength (unifyNewlines cs) = signLength cs := by
  refine congr_of_head (p := fun c => c == '-' || c == '+') (by decide) (by decide) ?_ ?_ cs
  · intro c rest hc
    unfold signLength
    split <;> simp_all
  · intro c rest hc
    rcases Bool.or_eq_true_iff.mp hc with hc | hc <;> rw [beq_iff_eq.mp hc] <;> rfl

theorem wholeDigits_unifyNewlines : wholeDigits (unifyNewlines cs) = wholeDigits cs := by
  refine congr_of_head (p := Char.isDigit) (by decide) (by decide) ?_ ?_ cs
  · intro c rest hc
    unfold wholeDigits
    split <;> simp_all
  · intro c rest hc
    unfold wholeDigits
    split
    · simp_all
    · simp_all [takeWhile_unifyNewlines]

theorem fractionOf_unifyNewlines : fractionOf (unifyNewlines cs) = fractionOf cs := by
  refine congr_of_head (p := (· == '.')) (by decide) (by decide) ?_ ?_ cs
  · intro c rest hc
    unfold fractionOf
    split <;> simp_all
  · intro c rest hc
    rw [beq_iff_eq.mp hc]
    simp only [fractionOf, takeWhile_unifyNewlines (p := Char.isDigit) (by decide) (by decide)]

theorem dropSign_eq : dropSign cs = cs.drop (signLength cs) := by
  unfold dropSign
  split <;> simp_all [signLength]

theorem not_mem_take_signLength : '\r' ∉ cs.take (signLength cs) := by
  unfold signLength
  split <;> simp

theorem dropSign_unifyNewlines : dropSign (unifyNewlines cs) = unifyNewlines (dropSign cs) := by
  rw [dropSign_eq, dropSign_eq, signLength_unifyNewlines,
    drop_unifyNewlines (not_mem_take_signLength cs)]

theorem exponentOf_unifyNewlines : exponentOf (unifyNewlines cs) = exponentOf cs := by
  refine congr_of_head (p := fun c => c == 'e' || c == 'E') (by decide) (by decide) ?_ ?_ cs
  · intro c rest hc
    unfold exponentOf
    simp_all
  · intro c rest hc
    simp only [exponentOf, dropSign_unifyNewlines, isNegative_unifyNewlines,
      signLength_unifyNewlines, takeWhile_unifyNewlines (p := Char.isDigit) (by decide) (by decide)]

theorem dropMinus_eq : dropMinus cs = cs.drop (if isNegative cs then 1 else 0) := by
  unfold dropMinus
  split <;> simp_all [isNegative]

theorem not_mem_take_minus : '\r' ∉ cs.take (if isNegative cs then 1 else 0) := by
  unfold isNegative
  split <;> simp

theorem dropMinus_unifyNewlines : dropMinus (unifyNewlines cs) = unifyNewlines (dropMinus cs) := by
  rw [dropMinus_eq, dropMinus_eq, isNegative_unifyNewlines,
    drop_unifyNewlines (not_mem_take_minus cs)]

theorem not_mem_take_takeWhile {p : Char → Bool} (h : p '\r' = false) :
    '\r' ∉ cs.take (cs.takeWhile p).length := by
  rw [← List.prefix_iff_eq_take.mp (List.takeWhile_prefix p)]
  exact not_mem_takeWhile h cs

theorem not_mem_take_whole : '\r' ∉ cs.take (wholeDigits cs).length := by
  unfold wholeDigits
  split
  · simp
  · exact not_mem_take_takeWhile cs (by decide)

/-- What follows the whole digits, as a part of the whole. -/
theorem drop_whole : (dropMinus cs).drop (wholeDigits (dropMinus cs)).length =
    cs.drop ((if isNegative cs then 1 else 0) + (wholeDigits (dropMinus cs)).length) := by
  rw [← List.drop_drop, ← dropMinus_eq]

theorem not_mem_take_minus_whole :
    '\r' ∉ cs.take ((if isNegative cs then 1 else 0) + (wholeDigits (dropMinus cs)).length) := by
  refine not_mem_take_add (not_mem_take_minus cs) ?_
  rw [← dropMinus_eq]
  exact not_mem_take_whole (dropMinus cs)

variable {cs}

theorem not_mem_take_fraction {digits : List Char} (h : fractionOf cs = some digits) :
    '\r' ∉ cs.take (digits.length + 1) := by
  unfold fractionOf at h
  split at h
  next rest =>
    simp only at h
    split at h
    · cases h
    · obtain rfl := Option.some.inj h
      rw [List.take_succ_cons, List.mem_cons, not_or]
      exact ⟨by decide, not_mem_take_takeWhile rest (by decide)⟩
  next => cases h

theorem not_mem_take_exponent {e : Int × Nat} (h : exponentOf cs = some e) :
    '\r' ∉ cs.take e.2 := by
  cases cs with
  | nil => cases h
  | cons mark rest =>
    simp only [exponentOf] at h
    split at h
    next hm =>
      split at h
      · cases h
      · obtain rfl := Option.some.inj h
        have hmark : '\r' ≠ mark := by
          rintro rfl
          revert hm
          decide
        have hdigits := not_mem_take_takeWhile (dropSign rest) (p := Char.isDigit) (by decide)
        rw [dropSign_eq] at hdigits
        have hsigned := not_mem_take_add (not_mem_take_signLength rest) hdigits
        rw [← dropSign_eq] at hsigned
        rw [Nat.add_assoc, Nat.add_comm 1, List.take_succ_cons, List.mem_cons, not_or]
        exact ⟨hmark, hsigned⟩
    next => cases h

theorem numeral?_unifyNewlines (cs : List Char) : numeral? (unifyNewlines cs) = numeral? cs := by
  unfold numeral?
  simp only [isNegative_unifyNewlines, dropMinus_unifyNewlines, wholeDigits_unifyNewlines,
    drop_unifyNewlines (not_mem_take_whole _), fractionOf_unifyNewlines]
  cases hf : fractionOf ((dropMinus cs).drop (wholeDigits (dropMinus cs)).length) with
  | none => simp only [List.drop_zero, exponentOf_unifyNewlines]
  | some digits =>
    simp only [drop_unifyNewlines (not_mem_take_fraction hf), exponentOf_unifyNewlines]

theorem not_mem_take_numeral {n : Numeral} {length : Nat} (h : numeral? cs = some (n, length)) :
    '\r' ∉ cs.take length := by
  unfold numeral? at h
  simp only at h
  split at h
  · cases h
  · cases h
    have hfirst := not_mem_take_minus_whole cs
    have hdrop := drop_whole cs
    generalize (dropMinus cs).drop (wholeDigits (dropMinus cs)).length = after at hdrop
    generalize (if isNegative cs then 1 else 0) + (wholeDigits (dropMinus cs)).length = k
      at hdrop hfirst
    subst hdrop
    cases hf : fractionOf (cs.drop k) with
    | none =>
      rw [List.drop_zero]
      cases he : exponentOf (cs.drop k) with
      | none => exact hfirst
      | some e => exact not_mem_take_add hfirst (not_mem_take_exponent he)
    | some digits =>
      have hsecond := not_mem_take_add hfirst (not_mem_take_fraction hf)
      rw [List.drop_drop]
      cases he : exponentOf (cs.drop (k + (digits.length + 1))) with
      | none => exact hsecond
      | some e => exact not_mem_take_add hsecond (not_mem_take_exponent he)

end Numbers

end NeoListing.Json

import Mathlib
import NeoListing.Text.Lines

/-! # Text with line endings unified

A part without carriage returns stays as it is. So a reader that stops at line endings reads
the same, and leaves the rest with its line endings unified.
-/

namespace NeoListing.Text

theorem unifyNewlines_nil : unifyNewlines [] = [] := by rw [unifyNewlines]

theorem unifyNewlines_cons {c : Char} (h : c ≠ '\r') (cs : List Char) :
    unifyNewlines (c :: cs) = c :: unifyNewlines cs := by
  rw [unifyNewlines]
  · rw [if_neg h]
  · intro rest hc
    exact absurd hc h

/-- A carriage return becomes a line feed, together with the line feed behind it. -/
theorem unifyNewlines_return (cs : List Char) :
    ∃ more, unifyNewlines ('\r' :: cs) = '\n' :: unifyNewlines more ∧
      (more = cs ∨ cs = '\n' :: more) := by
  by_cases h : ∃ more, cs = '\n' :: more
  · obtain ⟨more, rfl⟩ := h
    refine ⟨more, ?_, .inr rfl⟩
    rw [unifyNewlines]
  · refine ⟨cs, ?_, .inl rfl⟩
    rw [unifyNewlines]
    · rw [if_pos rfl]
    · intro rest _ hc
      exact h ⟨rest, hc⟩

theorem unifyNewlines_append {used : List Char} (h : '\r' ∉ used) (rest : List Char) :
    unifyNewlines (used ++ rest) = used ++ unifyNewlines rest := by
  induction used with
  | nil => rfl
  | cons c used ih =>
    rw [List.mem_cons, not_or] at h
    rw [List.cons_append, unifyNewlines_cons (Ne.symm h.1), ih h.2, List.cons_append]

theorem unifyNewlines_take_drop {cs : List Char} {n : Nat} (h : '\r' ∉ cs.take n) :
    unifyNewlines cs = cs.take n ++ unifyNewlines (cs.drop n) := by
  rw [← unifyNewlines_append h, List.take_append_drop]

theorem splitAt_unifyNewlines {cs : List Char} {n : Nat} (h : '\r' ∉ cs.take n) :
    (unifyNewlines cs).splitAt n = (cs.take n, unifyNewlines (cs.drop n)) := by
  have hs := unifyNewlines_take_drop h
  rw [List.splitAt_eq]
  by_cases hn : n ≤ cs.length
  · have hl : (cs.take n).length = n := List.length_take_of_le hn
    rw [hs, List.take_left' hl, List.drop_left' hl]
  · have hd : cs.drop n = [] := List.drop_of_length_le (by omega)
    have ht : cs.take n = cs := List.take_of_length_le (by omega)
    rw [hd, ht, unifyNewlines_nil, List.append_nil] at hs
    rw [hs, hd, unifyNewlines_nil]

theorem drop_unifyNewlines {cs : List Char} {n : Nat} (h : '\r' ∉ cs.take n) :
    (unifyNewlines cs).drop n = unifyNewlines (cs.drop n) := by
  have hs := splitAt_unifyNewlines h
  rw [List.splitAt_eq] at hs
  exact congrArg Prod.snd hs

theorem take_unifyNewlines {cs : List Char} {n : Nat} (h : '\r' ∉ cs.take n) :
    (unifyNewlines cs).take n = cs.take n := by
  have hs := splitAt_unifyNewlines h
  rw [List.splitAt_eq] at hs
  exact congrArg Prod.fst hs

/-- A carriage return leaves a line feed, at its place or before it. -/
theorem mem_take_unifyNewlines {cs : List Char} {n : Nat} (h : '\r' ∈ cs.take n) :
    '\n' ∈ (unifyNewlines cs).take n := by
  induction cs generalizing n with
  | nil => simp at h
  | cons c cs ih =>
    cases n with
    | zero => simp at h
    | succ n =>
      by_cases hc : c = '\r'
      · obtain ⟨more, hu, -⟩ := unifyNewlines_return cs
        rw [hc, hu, List.take_succ_cons]
        exact List.mem_cons_self
      · rw [List.take_succ_cons, List.mem_cons] at h
        rw [unifyNewlines_cons hc, List.take_succ_cons]
        exact List.mem_cons_of_mem c (ih (h.resolve_left (Ne.symm hc)))

theorem not_mem_take_add {c : Char} {cs : List Char} {m n : Nat} (hm : c ∉ cs.take m)
    (hn : c ∉ (cs.drop m).take n) : c ∉ cs.take (m + n) := by
  rw [List.take_add]
  exact List.not_mem_append hm hn

theorem length_unifyNewlines_le (cs : List Char) : (unifyNewlines cs).length ≤ cs.length := by
  fun_induction unifyNewlines cs with
  | case1 => exact Nat.le_refl 0
  | case2 rest ih =>
    simp only [List.length_cons]
    omega
  | case3 c rest _ ih =>
    simp only [List.length_cons]
    omega

theorem unifyNewlines_ne_nil {cs : List Char} (h : cs ≠ []) : unifyNewlines cs ≠ [] := by
  cases cs with
  | nil => exact absurd rfl h
  | cons c cs =>
    by_cases hc : c = '\r'
    · obtain ⟨more, hu, -⟩ := unifyNewlines_return cs
      rw [hc, hu]
      exact List.cons_ne_nil _ _
    · rw [unifyNewlines_cons hc]
      exact List.cons_ne_nil _ _

/-- A row of characters of a class without line endings ends where it did. -/
theorem takeWhile_unifyNewlines {p : Char → Bool} (hr : p '\r' = false) (hn : p '\n' = false)
    (cs : List Char) : (unifyNewlines cs).takeWhile p = cs.takeWhile p := by
  induction cs with
  | nil => rw [unifyNewlines_nil]
  | cons c cs ih =>
    by_cases hc : c = '\r'
    · obtain ⟨more, hu, -⟩ := unifyNewlines_return cs
      rw [hc, hu, List.takeWhile_cons, List.takeWhile_cons, hr, hn]
      rfl
    · rw [unifyNewlines_cons hc, List.takeWhile_cons, List.takeWhile_cons, ih]

theorem not_mem_takeWhile {p : Char → Bool} {c : Char} (h : p c = false) (cs : List Char) :
    c ∉ cs.takeWhile p := by
  intro hc
  rw [List.mem_takeWhile_imp hc] at h
  cases h

/-- Whether a text starts with a word does not depend on line endings. -/
theorem isPrefixOf_unifyNewlines {word : List Char} (hr : '\r' ∉ word) (hn : '\n' ∉ word)
    (cs : List Char) : word.isPrefixOf (unifyNewlines cs) = word.isPrefixOf cs := by
  induction word generalizing cs with
  | nil => rfl
  | cons w word ih =>
    rw [List.mem_cons, not_or] at hr hn
    cases cs with
    | nil => rw [unifyNewlines_nil]
    | cons c cs =>
      by_cases hc : c = '\r'
      · obtain ⟨more, hu, -⟩ := unifyNewlines_return cs
        have hbr : (w == '\r') = false := beq_eq_false_iff_ne.mpr (Ne.symm hr.1)
        have hbn : (w == '\n') = false := beq_eq_false_iff_ne.mpr (Ne.symm hn.1)
        rw [hc, hu, List.isPrefixOf, List.isPrefixOf, hbr, hbn]
        rfl
      · rw [unifyNewlines_cons hc, List.isPrefixOf, List.isPrefixOf, ih hr.2 hn.2]

end NeoListing.Text

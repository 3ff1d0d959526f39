import Mathlib
import NeoListing.Table

/-! # Looking up keys in tables

Which of several values of a key counts, read off the rows that a table was made from.
-/

namespace NeoListing.Table

variable {κ α β : Type} [BEq κ]

theorem get?_append (t u : Table κ α) (k : κ) :
    (t ++ u : Table κ α).get? k = (t.get? k).or (u.get? k) := List.lookup_append

variable [LawfulBEq κ]

theorem mem_of_get? {t : Table κ α} {k : κ} {v : α} (h : t.get? k = some v) : (k, v) ∈ t := by
  obtain ⟨l₁, l₂, rfl, -⟩ := List.lookup_eq_some_iff.mp h
  simp

theorem get?_cons_self (k : κ) (v : α) (t : Table κ α) : get? ((k, v) :: t) k = some v :=
  List.lookup_cons_self

theorem get?_cons_of_ne {k k' : κ} (h : k' ≠ k) (v : α) (t : Table κ α) :
    get? ((k, v) :: t) k' = t.get? k' := by
  have hb : (k' == k) = false := beq_eq_false_iff_ne.mpr h
  simp only [get?, List.lookup_cons, hb]

theorem get?_putNew (k : κ) (v : α) (t : Table κ α) (k' : κ) :
    (putNew k v t).get? k' = (t.get? k').or (get? [(k, v)] k') := by
  unfold putNew
  by_cases hc : t.contains k = true
  · rw [if_pos hc]
    obtain ⟨w, hw⟩ := Option.isSome_iff_exists.mp hc
    by_cases hk : k' = k
    · rw [hk, hw]
      rfl
    · have hn : get? [(k, v)] k' = none := get?_cons_of_ne hk v []
      rw [hn, Option.or_none]
  · rw [if_neg hc]
    exact get?_append t [(k, v)] k'

theorem get?_put_self (k : κ) (v : α) (t : Table κ α) : (put k v t).get? k = some v := by
  induction t with
  | nil => exact get?_cons_self k v []
  | cons r t ih =>
    obtain ⟨j, w⟩ := r
    by_cases hj : j = k
    · subst hj
      simp only [put, beq_self_eq_true, if_true]
      exact get?_cons_self j v t
    · have hb : (j == k) = false := beq_eq_false_iff_ne.mpr hj
      simp only [put, hb, Bool.false_eq_true, if_false]
      rw [get?_cons_of_ne (Ne.symm hj), ih]

theorem get?_put_of_ne {k k' : κ} (h : k' ≠ k) (v : α) (t : Table κ α) :
    (put k v t).get? k' = t.get? k' := by
  induction t with
  | nil => exact get?_cons_of_ne h v []
  | cons r t ih =>
    obtain ⟨j, w⟩ := r
    by_cases hj : j = k
    · subst hj
      simp only [put, beq_self_eq_true, if_true]
      rw [get?_cons_of_ne h, get?_cons_of_ne h]
    · have hb : (j == k) = false := beq_eq_false_iff_ne.mpr hj
      simp only [put, hb, Bool.false_eq_true, if_false]
      by_cases hk : k' = j
      · rw [hk, get?_cons_self, get?_cons_self]
      · rw [get?_cons_of_ne hk, get?_cons_of_ne hk, ih]

theorem get?_put (k : κ) (v : α) (t : Table κ α) (k' : κ) :
    (put k v t).get? k' = (get? [(k, v)] k').or (t.get? k') := by
  by_cases hk : k' = k
  · subst hk
    rw [get?_put_self, get?_cons_self, Option.some_or]
  · have hn : get? [(k, v)] k' = none := get?_cons_of_ne hk v []
    rw [get?_put_of_ne hk, hn, Option.none_or]

theorem get?_foldl_put (rows t : Table κ α) (k : κ) :
    (rows.foldl (fun t r => put r.1 r.2 t) t).get? k = (get? rows.reverse k).or (t.get? k) := by
  induction rows generalizing t with
  | nil => rfl
  | cons r rows ih =>
    rw [List.foldl_cons, ih, get?_put, List.reverse_cons, get?_append, Option.or_assoc]

/-- Of equal keys the last counts. -/
theorem get?_ofRows (rows : List (κ × α)) (k : κ) : (ofRows rows).get? k = get? rows.reverse k := by
  rw [ofRows, get?_foldl_put]
  exact Option.or_none

theorem get?_foldl_putNew (rows t : Table κ α) (k : κ) :
    (rows.foldl (fun t r => putNew r.1 r.2 t) t).get? k = (t.get? k).or (rows.get? k) := by
  induction rows generalizing t with
  | nil => exact Option.or_none.symm
  | cons r rows ih =>
    have hr : get? (r :: rows) k = (get? [r] k).or (get? rows k) := get?_append [r] rows k
    rw [List.foldl_cons, ih, get?_putNew, hr, Option.or_assoc]

/-- Of equal keys the first counts. -/
theorem get?_ofFirstRows (rows : List (κ × α)) (k : κ) :
    (ofFirstRows rows).get? k = get? rows k := get?_foldl_putNew rows [] k

theorem get?_filter_of_ne {k k' : κ} (h : k' ≠ k) (t : Table κ α) :
    get? (t.filter fun r => r.1 != k) k' = t.get? k' := by
  induction t with
  | nil => rfl
  | cons r t ih =>
    obtain ⟨j, w⟩ := r
    by_cases hj : j = k
    · subst hj
      rw [List.filter_cons_of_neg (by simp), ih, get?_cons_of_ne h]
    · rw [List.filter_cons_of_pos (by simpa using hj)]
      by_cases hk : k' = j
      · subst hk
        rw [get?_cons_self, get?_cons_self]
      · rw [get?_cons_of_ne hk, get?_cons_of_ne hk, ih]

theorem get?_filter_self (k : κ) (t : Table κ α) : get? (t.filter fun r => r.1 != k) k = none := by
  induction t with
  | nil => rfl
  | cons r t ih =>
    obtain ⟨j, w⟩ := r
    by_cases hj : j = k
    · rw [List.filter_cons_of_neg (by simpa using hj), ih]
    · rw [List.filter_cons_of_pos (by simpa using hj), get?_cons_of_ne (Ne.symm hj), ih]

/-- In a table with one row for each item, a key leads to the first item that has it. -/
theorem get?_map (key : β → κ) (value : β → α) (items : List β) (k : κ) :
    get? (items.map fun x => (key x, value x)) k =
      (items.find? fun x => key x == k).map value := by
  induction items with
  | nil => rfl
  | cons x items ih =>
    rw [List.map_cons, List.find?_cons]
    by_cases h : key x = k
    · subst h
      rw [get?_cons_self, beq_self_eq_true]
      rfl
    · have hb : (key x == k) = false := beq_eq_false_iff_ne.mpr h
      rw [get?_cons_of_ne (Ne.symm h), hb, ih]

end NeoListing.Table

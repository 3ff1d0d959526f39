import Mathlib
import NeoListing.Proofs.Outcome

/-! # The fault that decides

A computation made of steps fails with the fault of its first step that fails, and a row that is
read item by item with that of the first item that cannot be read.
-/

namespace NeoListing.Outcome

variable {ε α β : Type} {bad : ε → Prop}

def FailsWith (bad : ε → Prop) (x : Except ε α) : Prop := ∃ e, x = .error e ∧ bad e

@[simp] theorem failsWith_ok (a : α) : FailsWith bad (.ok a) ↔ False := by
  simp [FailsWith]

@[simp] theorem failsWith_error (e : ε) : FailsWith bad (.error e : Except ε α) ↔ bad e := by
  simp [FailsWith]

theorem failsWith_bind {x : Except ε α} {f : α → Except ε β} :
    FailsWith bad (x >>= f) ↔ FailsWith bad x ∨ ∃ a, x = .ok a ∧ FailsWith bad (f a) := by
  constructor
  · rintro ⟨e, he, hb⟩
    rcases bind_eq_error_iff.mp he with he | ⟨a, ha, he⟩
    · exact .inl ⟨e, he, hb⟩
    · exact .inr ⟨a, ha, e, he, hb⟩
  · rintro (⟨e, he, hb⟩ | ⟨a, ha, e, he, hb⟩)
    · exact ⟨e, bind_eq_error_iff.mpr (.inl he), hb⟩
    · exact ⟨e, bind_eq_error_iff.mpr (.inr ⟨a, ha, he⟩), hb⟩

theorem failsWith_map {x : Except ε α} {f : α → β} :
    FailsWith bad (x.map f) ↔ FailsWith bad x := by
  cases x <;> simp [Except.map]

section Total

variable {x : Except ε α} {f : α → Except ε β}

theorem failsWith_bind_of_total (h : ∀ a, x = .ok a → ∃ b, f a = .ok b) :
    FailsWith bad (x >>= f) ↔ FailsWith bad x := by
  refine failsWith_bind.trans (or_iff_left ?_)
  rintro ⟨a, ha, hf⟩
  obtain ⟨b, hb⟩ := h a ha
  rw [hb] at hf
  exact (failsWith_ok b).mp hf

theorem exists_bind_eq_ok_of_total (h : ∀ a, x = .ok a → ∃ b, f a = .ok b) :
    (∃ b, x >>= f = .ok b) ↔ ∃ a, x = .ok a := by
  simp only [bind_eq_ok_iff]
  constructor
  · rintro ⟨b, a, ha, -⟩
    exact ⟨a, ha⟩
  · rintro ⟨a, ha⟩
    obtain ⟨b, hb⟩ := h a ha
    exact ⟨b, a, ha, hb⟩

end Total

/-- What reads a row item by item maps over it. -/
theorem eq_mapM (read : List α → Except ε (List β)) (f : α → Except ε β) (hnil : read [] = .ok [])
    (hcons : ∀ x xs, read (x :: xs) = do
      let y ← f x
      return y :: (← read xs)) (xs : List α) : read xs = xs.mapM f := by
  induction xs with
  | nil => exact hnil
  | cons x xs ih => rw [hcons, List.mapM_cons, ih]

theorem exists_mapM_eq_ok_iff {f : α → Except ε β} {xs : List α} :
    (∃ ys, xs.mapM f = .ok ys) ↔ ∀ x ∈ xs, ∃ y, f x = .ok y := by
  induction xs with
  | nil => exact ⟨fun _ => List.forall_mem_nil _, fun _ => ⟨[], rfl⟩⟩
  | cons x xs ih =>
    rw [List.forall_mem_cons, ← ih, List.mapM_cons]
    simp only [bind_eq_ok_iff]
    constructor
    · rintro ⟨-, y, hy, ys, hys, -⟩
      exact ⟨⟨y, hy⟩, ys, hys⟩
    · rintro ⟨⟨y, hy⟩, ys, hys⟩
      exact ⟨y :: ys, y, hy, ys, hys, rfl⟩

theorem exists_of_mem_mapM {f : α → Except ε β} {xs : List α} {ys : List β}
    (h : xs.mapM f = .ok ys) {y : β} (hy : y ∈ ys) : ∃ x ∈ xs, f x = .ok y := by
  induction xs generalizing ys with
  | nil =>
    cases h
    cases hy
  | cons x xs ih =>
    rw [List.mapM_cons] at h
    simp only [bind_eq_ok_iff] at h
    obtain ⟨z, hz, zs, hzs, hcons⟩ := h
    cases hcons
    rcases List.mem_cons.mp hy with rfl | hy
    · exact ⟨x, List.mem_cons_self, hz⟩
    · obtain ⟨x', hx', hfx'⟩ := ih hzs hy
      exact ⟨x', List.mem_cons_of_mem x hx', hfx'⟩

/-- An item stops the reading of a row, and all items before it are fine. -/
def First (fine stops : α → Prop) (xs : List α) : Prop :=
  ∃ before x after, xs = before ++ x :: after ∧ (∀ y ∈ before, fine y) ∧ stops x

section First

variable {fine stops : α → Prop} {x : α} {xs : List α}

theorem not_first_nil : ¬First fine stops [] := by
  rintro ⟨before, x, after, h, -⟩
  simp at h

theorem first_cons :
    First fine stops (x :: xs) ↔ stops x ∨ fine x ∧ First fine stops xs := by
  constructor
  · rintro ⟨before, y, after, h, hb, hy⟩
    cases before with
    | nil =>
      obtain ⟨rfl, rfl⟩ := List.cons.inj h
      exact .inl hy
    | cons z before =>
      obtain ⟨rfl, rfl⟩ := List.cons.inj h
      rw [List.forall_mem_cons] at hb
      exact .inr ⟨hb.1, before, y, after, rfl, hb.2, hy⟩
  · rintro (hx | ⟨hx, before, y, after, rfl, hb, hy⟩)
    · exact ⟨[], x, xs, rfl, List.forall_mem_nil _, hx⟩
    · exact ⟨x :: before, y, after, rfl, List.forall_mem_cons.mpr ⟨hx, hb⟩, hy⟩

end First

theorem failsWith_mapM {f : α → Except ε β} {xs : List α} :
    FailsWith bad (xs.mapM f) ↔
      First (fun x => ∃ b, f x = .ok b) (fun x => FailsWith bad (f x)) xs := by
  induction xs with
  | nil => exact iff_of_false (fun ⟨e, h, _⟩ => by cases h) not_first_nil
  | cons x xs ih =>
    rw [List.mapM_cons, failsWith_bind, first_cons, ← ih]
    refine or_congr_right ?_
    constructor
    · rintro ⟨b, hb, h⟩
      rcases failsWith_bind.mp h with h | ⟨bs, -, h⟩
      · exact ⟨⟨b, hb⟩, h⟩
      · exact absurd h (failsWith_ok _).mp
    · rintro ⟨⟨b, hb⟩, h⟩
      exact ⟨b, hb, failsWith_bind.mpr (.inl h)⟩

end NeoListing.Outcome

import NeoListing.Listing.Render
import NeoListing.Proofs.Outcome
import NeoListing.Proofs.Text.Decimal

/-! # Lines of a rendered plan

An entry is rendered if the numbers in it can be written and the column of addresses fits. Its line
is not empty, so deleting the empty lines of a listing leaves exactly the lines of its entries.
-/

namespace NeoListing

def Entry.Writable : Entry → Prop
  | methodStart _ _ => True
  | source _ _ line _ => Text.Writable line
  | instruction address _ _ _ => Text.Writable address
  | methodEnd _ _ => True

namespace Render

theorem paint_ne_nil (colours : Bool) (colour : Colour) {t : Text} (h : t ≠ []) :
    paint colours colour t ≠ [] := by
  unfold paint
  split
  · simp [h]
  · exact h

/-! ## Numbers -/

theorem number_eq_ok_iff {n : Int} {s : String} :
    number n = .ok s ↔ Text.Writable n ∧ s = toString n := by
  rw [← Text.decimal?_eq_some_iff]
  unfold number
  cases Text.decimal? n <;> simp

theorem number_of_not_writable {n : Int} (h : ¬Text.Writable n) :
    number n = .error .tooManyDigits := by
  simp only [number, Text.decimal?_of_not_writable h]

theorem mem_padded {width : Nat} {s : String} {c : Char} (h : c ∈ (padded width s).toList) :
    c = '0' ∨ c ∈ s.toList := by
  simp only [padded, String.toList_ofList, List.mem_append] at h
  rcases h with (h | h) | h
  · exact .inr (List.takeWhile_subset _ h)
  · exact .inl (List.eq_of_mem_replicate h)
  · exact .inr (List.dropWhile_subset _ h)

theorem padded_ne_nil (width : Nat) {s : String} (h : s.toList ≠ []) :
    Text.ofString (padded width s) ≠ [] := by
  obtain ⟨c, hc⟩ := List.exists_mem_of_ne_nil _ h
  rw [← List.takeWhile_append_dropWhile (p := (· == '-')) (l := s.toList)] at hc
  have hm : c ∈ (padded width s).toList := by
    simp only [padded, String.toList_ofList, List.mem_append]
    rcases List.mem_append.mp hc with hc | hc
    · exact .inl (.inl hc)
    · exact .inr hc
  exact List.ne_nil_of_mem (List.mem_map_of_mem hm)

/-! ## Columns -/

structure ColumnFits (machine : Machine) (width : Int) : Prop where
  nonneg : 0 ≤ width
  le_maxWidth : width ≤ maxWidth
  le_room : width ≤ machine.room

variable {machine : Machine} {width : Int} {colours : Bool}

theorem ColumnFits.writable (h : ColumnFits machine width) : Text.Writable width := by
  have hmax : width ≤ maxWidth := h.le_maxWidth
  have h0 : 0 ≤ width := h.nonneg
  refine Text.writable_of_natAbs_le (k := Nat.pow 2 63) ?_ (by decide)
  unfold maxWidth at hmax
  omega

theorem addressText_eq_ok_iff {address : Int} {s : String} :
    addressText machine width address = .ok s ↔
      ColumnFits machine width ∧ Text.Writable address ∧
        s = padded width.toNat (toString address) := by
  simp only [addressText, Outcome.bind_eq_ok_iff, Outcome.require_eq_ok_iff, number_eq_ok_iff]
  constructor
  · rintro ⟨-, -, hneg, hmax, digits, ⟨ha, rfl⟩, hroom, hs⟩
    exact ⟨⟨Int.not_lt.mp hneg, Int.not_lt.mp hmax, Int.not_lt.mp hroom⟩, ha,
      (Except.ok.inj hs).symm⟩
  · rintro ⟨hw, ha, rfl⟩
    exact ⟨_, ⟨hw.writable, rfl⟩, Int.not_lt.mpr hw.nonneg, Int.not_lt.mpr hw.le_maxWidth, _,
      ⟨ha, rfl⟩, Int.not_lt.mpr hw.le_room, rfl⟩

/-! ## Entries -/

def Renderable (machine : Machine) (width : Int) : Entry → Prop
  | .methodStart _ _ => True
  | .source _ _ line _ => Text.Writable line
  | .instruction address _ _ _ => ColumnFits machine width ∧ Text.Writable address
  | .methodEnd _ _ => True

theorem renderable_of_writable (hc : ColumnFits machine width) {plan : List Entry}
    (h : ∀ e ∈ plan, e.Writable) : ∀ e ∈ plan, Renderable machine width e := by
  intro e he
  cases e with
  | instruction address name operand comment => exact ⟨hc, h _ he⟩
  | _ => exact h _ he

theorem exists_entry_iff (colours : Bool) {e : Entry} :
    (∃ line, entry machine width colours e = .ok line) ↔ Renderable machine width e := by
  cases e with
  | methodStart address name => exact iff_of_true ⟨_, rfl⟩ trivial
  | methodEnd address name => exact iff_of_true ⟨_, rfl⟩ trivial
  | source address fileName line text =>
    simp only [entry, Outcome.bind_eq_ok_iff, number_eq_ok_iff, Renderable]
    constructor
    · rintro ⟨-, -, ⟨h, -⟩, -⟩
      exact h
    · intro h
      exact ⟨_, _, ⟨h, rfl⟩, rfl⟩
  | instruction address name operand comment =>
    simp only [entry, Outcome.bind_eq_ok_iff, addressText_eq_ok_iff, Renderable]
    constructor
    · rintro ⟨-, -, ⟨hw, ha, -⟩, -⟩
      exact ⟨hw, ha⟩
    · rintro ⟨hw, ha⟩
      exact ⟨_, _, ⟨hw, ha, rfl⟩, rfl⟩

theorem entry_ne_nil {e : Entry} {line : Text} (h : entry machine width colours e = .ok line) :
    line ≠ [] := by
  have hmark : ∀ {s : String} {t : Text}, s.toList ≠ [] → Text.ofString s ++ t ≠ [] := by
    intro s t hs
    simp [Text.ofString, hs]
  cases e with
  | methodStart address name =>
    obtain rfl := Except.ok.inj h
    exact paint_ne_nil colours .magenta (hmark (by decide))
  | methodEnd address name =>
    obtain rfl := Except.ok.inj h
    exact paint_ne_nil colours .magenta (hmark (by decide))
  | source address fileName line text =>
    simp only [entry, Outcome.bind_eq_ok_iff] at h
    obtain ⟨digits, -, h⟩ := h
    obtain rfl := Except.ok.inj h
    apply paint_ne_nil
    simp only [List.append_assoc]
    exact hmark (by decide)
  | instruction address name operand comment =>
    simp only [entry, Outcome.bind_eq_ok_iff] at h
    obtain ⟨a, ha, h⟩ := h
    obtain rfl := Except.ok.inj h
    obtain ⟨-, -, rfl⟩ := addressText_eq_ok_iff.mp ha
    rw [List.append_assoc]
    exact List.append_ne_nil_of_left_ne_nil (paint_ne_nil colours .yellow
      (padded_ne_nil width.toNat (toList_toString_int_ne_nil address))) _

def gap (last : Option Int) (address : Int) : Nat :=
  if last = none ∨ last = some address then 0 else 1

theorem gap_none (address : Int) : gap none address = 0 := if_pos (.inl rfl)

theorem gap_self (address : Int) : gap (some address) address = 0 := if_pos (.inr rfl)

theorem gap_of_ne {last address : Int} (h : last ≠ address) : gap (some last) address = 1 :=
  if_neg (by simp [h])

section Step

variable {e : Entry} {rest : List Entry}

theorem linesFrom_cons (last : Option Int) {line : Text} {more : List Text}
    (he : entry machine width colours e = .ok line)
    (hm : linesFrom machine width colours (some e.address) rest = .ok more) :
    linesFrom machine width colours last (e :: rest) =
      .ok (List.replicate (gap last e.address) [] ++ line :: more) := by
  cases last with
  | none =>
    rw [linesFrom, he, hm, gap_none]
    rfl
  | some address =>
    by_cases ha : e.address = address
    · rw [← ha, linesFrom, he, hm, gap_self]
      simp only [if_true]
      rfl
    · rw [linesFrom, he, hm, gap_of_ne (Ne.symm ha)]
      simp only [if_neg ha]
      rfl

theorem exists_of_linesFrom_cons {last : Option Int} {ls : List Text}
    (h : linesFrom machine width colours last (e :: rest) = .ok ls) :
    ∃ line more, entry machine width colours e = .ok line ∧
      linesFrom machine width colours (some e.address) rest = .ok more ∧
      ls = List.replicate (gap last e.address) [] ++ line :: more := by
  have hsteps := h
  simp only [linesFrom, Outcome.bind_eq_ok_iff] at hsteps
  obtain ⟨line, hl, more, hm, -⟩ := hsteps
  rw [linesFrom_cons last hl hm] at h
  exact ⟨line, more, hl, hm, (Except.ok.inj h).symm⟩

end Step

/-- The lines of a plan are the lines of its entries with empty lines between. -/
theorem linesFrom_filter {last : Option Int} {plan : List Entry} {ls : List Text}
    (h : linesFrom machine width colours last plan = .ok ls) :
    List.Forall₂ (fun e r => entry machine width colours e = .ok r) plan
      (ls.filter (fun l => !l.isEmpty)) := by
  induction plan generalizing last ls with
  | nil =>
    obtain rfl := Except.ok.inj h
    exact List.Forall₂.nil
  | cons e rest ih =>
    obtain ⟨line, more, hl, hm, rfl⟩ := exists_of_linesFrom_cons h
    have hne : line.isEmpty = false := by simpa using entry_ne_nil hl
    have hline : (line :: more).filter (fun l => !l.isEmpty) =
        line :: more.filter (fun l => !l.isEmpty) := by simp [hne]
    rw [List.filter_append, hline, List.filter_replicate]
    exact List.Forall₂.cons hl (ih hm)

theorem exists_forall₂_entry (colours : Bool) {plan : List Entry}
    (h : ∀ e ∈ plan, Renderable machine width e) :
    ∃ rs, List.Forall₂ (fun e r => entry machine width colours e = .ok r) plan rs := by
  induction plan with
  | nil => exact ⟨[], List.Forall₂.nil⟩
  | cons e plan ih =>
    rw [List.forall_mem_cons] at h
    obtain ⟨r, hr⟩ := (exists_entry_iff colours).mpr h.1
    obtain ⟨rs, hrs⟩ := ih h.2
    exact ⟨r :: rs, List.Forall₂.cons hr hrs⟩

theorem exists_linesFrom_iff (colours : Bool) {plan : List Entry} (last : Option Int) :
    (∃ ls, linesFrom machine width colours last plan = .ok ls) ↔
      ∀ e ∈ plan, Renderable machine width e := by
  induction plan generalizing last with
  | nil => exact iff_of_true ⟨[], rfl⟩ (List.forall_mem_nil _)
  | cons e rest ih =>
    rw [List.forall_mem_cons, ← ih (some e.address), ← exists_entry_iff colours]
    constructor
    · rintro ⟨ls, h⟩
      obtain ⟨line, more, hl, hm, -⟩ := exists_of_linesFrom_cons h
      exact ⟨⟨line, hl⟩, more, hm⟩
    · rintro ⟨⟨line, hl⟩, more, hm⟩
      exact ⟨_, linesFrom_cons last hl hm⟩

theorem exists_listing_iff {plan : List Entry} :
    (∃ text, listing machine width colours plan = .ok text) ↔
      ∀ e ∈ plan, Renderable machine width e := by
  rw [← exists_linesFrom_iff colours none]
  constructor
  · rintro ⟨text, h⟩
    obtain ⟨ls, hl, -⟩ := Outcome.map_eq_ok_iff.mp h
    exact ⟨ls, hl⟩
  · rintro ⟨ls, hl⟩
    exact ⟨_, Outcome.map_eq_ok_iff.mpr ⟨ls, hl, rfl⟩⟩

theorem intercalate_cons {α : Type} (separator l : List α) (ls : List (List α)) :
    separator.intercalate (l :: ls) = l ++ ls.flatMap (separator ++ ·) := by
  induction ls generalizing l with
  | nil => exact List.intercalate_singleton.trans (List.append_nil l).symm
  | cons l' ls ih =>
    rw [List.intercalate_cons_cons, ih, List.flatMap_cons, List.append_assoc, List.append_assoc]

/-- Lines without line feeds can be read back from the joined text. -/
theorem intercalate_inj {ls₁ ls₂ : List Text} (h₁ : ∀ l ∈ ls₁, CodePoint.scalar '\n' ∉ l)
    (h₂ : ∀ l ∈ ls₂, CodePoint.scalar '\n' ∉ l) (hn₁ : ls₁ ≠ []) (hn₂ : ls₂ ≠ [])
    (h : (Text.ofString "\n").intercalate ls₁ = (Text.ofString "\n").intercalate ls₂) :
    ls₁ = ls₂ := by
  have hs : Text.ofString "\n" = [CodePoint.scalar '\n'] := by decide
  rw [hs] at h
  have hsplit := congrArg (fun t => List.splitOn (CodePoint.scalar '\n') t) h
  simp only [List.splitOn_intercalate _ h₁ hn₁, List.splitOn_intercalate _ h₂ hn₂] at hsplit
  exact hsplit

end Render

end NeoListing

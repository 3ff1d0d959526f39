import NeoListing.Proofs.Debug.InfoSchema
import NeoListing.Proofs.Listing.PlanReference

/-! # The columns of a span

The source text of a point is compared with the characters that stand in the columns of its
span, counted from one. A span that starts before the first column is shown as if it were moved
to the right until it starts there, so its end moves too.
-/

namespace NeoListing

/-! ## Rows with numbered columns -/

section Rows

variable {α : Type}

theorem map_fst_filter_from (low : Int) (row : List α) (first : Nat) :
    ((row.zipIdx first).filter fun c => low ≤ c.2).map Prod.fst =
      row.drop (low - first).toNat := by
  induction row generalizing first with
  | nil => simp
  | cons c row ih =>
    rw [List.zipIdx_cons, List.filter_cons]
    by_cases h : low ≤ first
    · have hzero : (low - first).toNat = 0 := by omega
      have hnext : (low - (first + 1 : Nat)).toNat = 0 := by omega
      rw [if_pos (decide_eq_true h), List.map_cons, ih, hzero, hnext, List.drop_zero,
        List.drop_zero]
    · have hsucc : (low - first).toNat = (low - (first + 1 : Nat)).toNat + 1 := by omega
      rw [if_neg (by simpa using h), ih, hsucc, List.drop_succ_cons]

theorem filter_below (high : Int) (row : List α) (first : Nat) :
    ((row.zipIdx first).filter fun c => (c.2 : Int) < high) =
      (row.take (high - first).toNat).zipIdx first := by
  induction row generalizing first with
  | nil => simp
  | cons c row ih =>
    rw [List.zipIdx_cons, List.filter_cons, ih]
    by_cases h : (first : Int) < high
    · have hsucc : (high - first).toNat = (high - (first + 1 : Nat)).toNat + 1 := by omega
      rw [if_pos (decide_eq_true h), hsucc, List.take_succ_cons, List.zipIdx_cons]
    · have hzero : (high - first).toNat = 0 := by omega
      have hnext : (high - (first + 1 : Nat)).toNat = 0 := by omega
      rw [if_neg (by simpa using h), hzero, hnext, List.take_zero, List.take_zero]
      rfl

end Rows

namespace SequencePoint

/-! ## Text by columns -/

def InSpan (p : SequencePoint) (column : Nat) : Prop :=
  p.start.column ≤ column ∧ (p.start.line = p.stop.line → column < p.stop.column)

instance (p : SequencePoint) (column : Nat) : Decidable (p.InSpan column) :=
  inferInstanceAs (Decidable (_ ∧ _))

def spanned (p : SequencePoint) (line : Text) : Text :=
  ((line.zipIdx 1).filter fun c => p.InSpan c.2).map Prod.fst

/-- The point moved to the right until it starts at the first column, if it starts before. -/
def moved (p : SequencePoint) : SequencePoint :=
  let shift : Int := (1 - p.start.column).toNat
  ⟨p.address, p.document, ⟨p.start.line, p.start.column + shift⟩,
    ⟨p.stop.line, p.stop.column + shift⟩⟩

/-- A span within one line that starts before the first column and ends on the line. -/
structure Overruns (p : SequencePoint) (line : Text) : Prop where
  sameLine : p.start.line = p.stop.line
  early : p.start.column < 1
  forward : p.start.column < p.stop.column
  within : p.stop.column ≤ line.length
  nonempty : line ≠ []

variable (p : SequencePoint) (line : Text)

theorem spanned_of_same (h : p.start.line = p.stop.line) :
    p.spanned line = (line.drop (p.start.column - 1).toNat).take
      ((p.stop.column - 1).toNat - (p.start.column - 1).toNat) := by
  have hf : ∀ c : CodePoint × Nat, decide (p.InSpan c.2) =
      (decide (p.start.column ≤ c.2) && decide ((c.2 : Int) < p.stop.column)) := by
    intro c
    simp [InSpan, h]
  simp only [spanned, hf]
  -- The upper bound goes first: what it leaves is again a row with numbered columns.
  rw [← List.filter_filter, filter_below, map_fst_filter_from, List.drop_take]
  rfl

theorem spanned_of_ne (h : p.start.line ≠ p.stop.line) :
    p.spanned line = line.drop (p.start.column - 1).toNat := by
  have hf : ∀ c : CodePoint × Nat, decide (p.InSpan c.2) = decide (p.start.column ≤ c.2) := by
    intro c
    simp [InSpan, h]
  simp only [spanned, hf]
  rw [map_fst_filter_from]
  rfl

theorem covered_eq_spanned_moved : p.covered line = p.moved.spanned line := by
  have hstart : (p.moved.start.column - 1).toNat = (p.start.column - 1).toNat := by
    simp only [moved]
    omega
  by_cases h : p.start.line = p.stop.line
  · have hlength : (p.moved.stop.column - 1).toNat - (p.start.column - 1).toNat =
        (p.stop.column - p.start.column).toNat := by
      simp only [moved]
      omega
    rw [spanned_of_same p.moved _ h, hstart, hlength, covered, if_pos h]
  · rw [spanned_of_ne p.moved _ h, hstart, covered, if_neg h]

theorem covered_eq_spanned_iff : p.covered line = p.spanned line ↔ ¬p.Overruns line := by
  by_cases h : p.start.line = p.stop.line
  · have hline : line = [] ↔ line.length = 0 := List.length_eq_zero_iff.symm
    -- Both texts are starts of one row, so they are equal just if they are equally long.
    rw [spanned_of_same _ _ h, covered, if_pos h, List.take_eq_take_iff, List.length_drop]
    constructor
    · rintro hmin ⟨-, early, forward, within, nonempty⟩
      rw [ne_eq, hline] at nonempty
      omega
    · intro hn
      by_contra hmin
      refine hn ⟨h, ?_, ?_, ?_, ?_⟩
      · omega
      · omega
      · omega
      · rw [ne_eq, hline]
        omega
  · rw [spanned_of_ne _ _ h, covered, if_neg h]
    exact iff_of_true rfl fun ho => h ho.sameLine

structure IsNatural (p : SequencePoint) : Prop where
  startLine : 0 ≤ p.start.line
  startColumn : 0 ≤ p.start.column
  stopLine : 0 ≤ p.stop.line
  stopColumn : 0 ≤ p.stop.column

end SequencePoint

/-! ## Points that are read -/

namespace DebugInfo
open Outcome

def Piece.isNumber : Piece → Bool
  | .mark _ => false
  | _ => true

def Piece.Admits (piece : Piece) (n : Numeral) : Prop := piece = .natural → n.negative = false

theorem admits_of_matches {pattern : List Piece} {ns : List Numeral} {core : List Char}
    (h : Matches pattern ns core) :
    List.Forall₂ Piece.Admits (pattern.filter Piece.isNumber) ns := by
  induction h with
  | done => exact .nil
  | mark c h ih => exact ih
  | natural hd h ih => exact .cons (fun _ => rfl) ih
  | integer hd h ih => exact .cons (by rintro ⟨⟩) ih

theorem Numeral.int_nonneg {n : Numeral} (h : n.negative = false) : 0 ≤ n.int := by
  rw [Numeral.int, h]
  exact Int.natCast_nonneg _

theorem isNatural_of_readPoint {v : Json} {p : SequencePoint} (h : readPoint v = .ok p) :
    p.IsNatural := by
  obtain ⟨xs, hxs, hp⟩ := bind_eq_ok_iff.mp h
  obtain ⟨ns, ⟨core, -, -, hm, -⟩, -, rfl⟩ := (numbersOf_eq_ok_iff separated_point).mp hxs
  have hsigns : List.Forall₂ Piece.Admits
      [.natural, .integer, .natural, .natural, .natural, .natural] ns := admits_of_matches hm
  obtain _ | ⟨-, _ | ⟨-, _ | ⟨hsl, _ | ⟨hsc, _ | ⟨hel, _ | ⟨hec, ⟨⟩⟩⟩⟩⟩⟩⟩ := hsigns
  cases hp
  exact ⟨Numeral.int_nonneg (hsl rfl), Numeral.int_nonneg (hsc rfl),
    Numeral.int_nonneg (hel rfl), Numeral.int_nonneg (hec rfl)⟩

theorem isNatural_of_readMethod {v : Json} {m : DebugMethod} (h : readMethod v = .ok m) :
    ∀ p ∈ m.points, p.IsNatural := by
  cases v with
  | object members =>
    simp only [readMethod_object, bind_eq_ok_iff] at h
    obtain ⟨name, -, range, -, points, hpoints, hm⟩ := h
    cases hm
    obtain ⟨items, hi, -⟩ := exists_readPointsOf_iff.mp ⟨points, hpoints⟩
    rw [hi, readPointsOf, readPoints_eq_mapM] at hpoints
    intro p hp
    obtain ⟨item, -, hread⟩ := exists_of_mem_mapM hpoints hp
    exact isNatural_of_readPoint hread
  | _ => cases h

theorem isNatural_of_ofJson {v : Json} {info : DebugInfo} (h : ofJson v = .ok info) :
    ∀ m ∈ info.methods, ∀ p ∈ m.points, p.IsNatural := by
  cases v with
  | object members =>
    by_cases ha : ∃ documents methods, HasArrays members documents methods
    · obtain ⟨documents, methods, ha⟩ := ha
      simp only [ofJson_of_arrays ha, bind_eq_ok_iff, readMethods_eq_mapM] at h
      obtain ⟨_, -, _, -, _, hms, hi⟩ := h
      cases hi
      intro m hm
      obtain ⟨item, -, hread⟩ := exists_of_mem_mapM hms hm
      exact isNatural_of_readMethod hread
    · rw [ofJson_of_other ha] at h
      cases h
  | _ => cases h

end DebugInfo

/-! ## Source text -/

namespace SequencePoint

theorem sourceText_eq_none_iff (lines : List Text) (p : SequencePoint) :
    sourceText lines p.start p.stop = none ↔
      ¬(1 ≤ p.start.line ∧ p.start.line ≤ lines.length) := by
  rw [sourceText_eq]
  split
  next h => exact iff_of_false (Option.some_ne_none _) (not_not_intro h)
  next h => exact iff_of_true rfl h

theorem sourceText_append (p : SequencePoint) {before after : List Text} {line : Text}
    (h : p.start.line = before.length + 1) :
    sourceText (before ++ line :: after) p.start p.stop = some (p.covered line) := by
  have hin : 1 ≤ p.start.line ∧ p.start.line ≤ (before ++ line :: after).length := by
    rw [List.length_append, List.length_cons]
    omega
  have hindex : (p.start.line - 1).toNat = before.length := by omega
  rw [sourceText_eq, if_pos hin, hindex]
  simp

/-- A point that is read has natural numbers for its lines and columns. A point has no source text
just if its first line is none of the lines that there are. Otherwise its text consists of the
characters of that line in the columns of its span, in order, unless it starts before the first
column and ends on the same line, behind its start and not past the last column: then these are
the characters in the columns of the moved span. -/
theorem sourceText_by_columns (lines : List Text) (p : SequencePoint) :
    (∀ (v : Json) (info : DebugInfo), DebugInfo.ofJson v = .ok info →
      ∀ m ∈ info.methods, p ∈ m.points → p.IsNatural) ∧
    (sourceText lines p.start p.stop = none ↔
      ¬(1 ≤ p.start.line ∧ p.start.line ≤ lines.length)) ∧
    ∀ (before : List Text) (line : Text) (after : List Text),
      lines = before ++ line :: after → p.start.line = before.length + 1 →
        sourceText lines p.start p.stop = some (p.moved.spanned line) ∧
        (sourceText lines p.start p.stop = some (p.spanned line) ↔ ¬p.Overruns line) := by
  refine ⟨?_, sourceText_eq_none_iff lines p, ?_⟩
  · intro v info h m hm
    exact DebugInfo.isNatural_of_ofJson h m hm p
  · rintro before line after rfl h
    rw [sourceText_append p h, Option.some.injEq, Option.some.injEq]
    exact ⟨p.covered_eq_spanned_moved line, p.covered_eq_spanned_iff line⟩

/-- A span within the second line, with characters beyond ASCII before and in it. -/
theorem sourceText_by_columns_wide :
    let p : SequencePoint := ⟨0, 0, ⟨2, 3⟩, ⟨2, 5⟩⟩
    let m : DebugMethod := ⟨"N", "f", 0, 1, [p]⟩
    DebugInfo.ofJson (.object [("methods", .array [.object [("name", .text "N,f"),
        ("range", .text "0-1"), ("sequence-points", .array [.text "0[0]2:3-2:5"])]])]) =
      .ok ⟨[], none, [m]⟩ ∧
    p.IsNatural ∧
    sourceText [Text.ofString "x", Text.ofString "\té😀 = 1"] p.start p.stop =
      some (p.spanned (Text.ofString "\té😀 = 1")) ∧
    p.spanned (Text.ofString "\té😀 = 1") = Text.ofString "😀 " := by
  intro p m
  have hread : DebugInfo.ofJson (.object [("methods", .array [.object [("name", .text "N,f"),
      ("range", .text "0-1"), ("sequence-points", .array [.text "0[0]2:3-2:5"])]])]) =
      .ok ⟨[], none, [m]⟩ := by cbv
  obtain ⟨hnatural, -, htext⟩ :=
    sourceText_by_columns [Text.ofString "x", Text.ofString "\té😀 = 1"] p
  have hno : ¬p.Overruns (Text.ofString "\té😀 = 1") := fun ho => absurd ho.early (by decide)
  exact ⟨hread, hnatural _ _ hread m List.mem_cons_self List.mem_cons_self,
    (htext [Text.ofString "x"] _ [] rfl rfl).2.mpr hno, by cbv⟩

/-- A span on one line from column zero to column six takes in column six. -/
theorem sourceText_from_column_zero :
    DebugInfo.readPoint (.text "0[0]1:0-1:6") = .ok ⟨0, 0, ⟨1, 0⟩, ⟨1, 6⟩⟩ ∧
      sourceText [Text.ofString "return 1;"] ⟨1, 0⟩ ⟨1, 6⟩ = some (Text.ofString "return") ∧
      spanned ⟨0, 0, ⟨1, 0⟩, ⟨1, 6⟩⟩ (Text.ofString "return 1;") = Text.ofString "retur" := by
  refine ⟨by cbv, by cbv, by cbv⟩

end SequencePoint

end NeoListing

import NeoListing.File.Tree
import NeoListing.Proofs.Text.Newlines
import NeoListing.Proofs.Text.Utf8Codec

/-! # Source lines keep their numbers

A file written line by line is read as these lines, whichever of the two line ends each of them
has and whether a byte order mark stands in front or not. Whatever a file holds, none of its lines
reaches over a line boundary.
-/

namespace NeoListing

namespace Text

def lineBoundaries : List Char :=
  ['\n', '\r', '\x0B', '\x0C', '\x1C', '\x1D', '\x1E', '\x85', '\u2028', '\u2029']

theorem isLineBoundary_iff {c : Char} : isLineBoundary c = true ↔ c ∈ lineBoundaries := by
  have hc : ∀ d : Char, c = d ↔ c.toNat = d.toNat := fun d => Char.toNat_inj.symm
  simp only [isLineBoundary, lineBoundaries, List.mem_cons, List.not_mem_nil, or_false, hc,
    Bool.or_eq_true, Bool.and_eq_true, decide_eq_true_eq, beq_iff_eq]
  simp only [Char.reduceToNat]
  omega

/-! ## Cutting at line boundaries -/

theorem cutLines_cons {c : Char} (h : c ∉ lineBoundaries) (line cs : List Char) :
    cutLines line (c :: cs) = cutLines (c :: line) cs := by
  have hr : c ≠ '\r' := by
    rintro rfl
    exact h (by decide)
  rw [cutLines]
  · rw [if_neg (isLineBoundary_iff.not.mpr h)]
  · intro rest hc
    exact absurd hc hr

/-- Characters within a line are added to the current one. -/
theorem cutLines_append {used : List Char} (h : ∀ c ∈ used, c ∉ lineBoundaries)
    (line cs : List Char) : cutLines line (used ++ cs) = cutLines (used.reverse ++ line) cs := by
  induction used generalizing line with
  | nil => rfl
  | cons c used ih =>
    rw [List.forall_mem_cons] at h
    rw [List.cons_append, cutLines_cons h.1, ih h.2, List.reverse_cons, List.append_assoc]
    rfl

theorem cutLines_feed (line cs : List Char) :
    cutLines line ('\n' :: cs) = String.ofList line.reverse :: cutLines [] cs := by
  rw [cutLines]
  · rfl
  · intro rest hc
    cases hc

/-- No line reaches over a boundary, provided the current one does not. -/
theorem not_mem_lineBoundaries_of_cutLines {line cs : List Char} {l : String}
    (hline : ∀ c ∈ line, c ∉ lineBoundaries) (hl : l ∈ cutLines line cs) :
    ∀ c ∈ l.toList, c ∉ lineBoundaries := by
  have hcut : ∀ {line : List Char}, (∀ c ∈ line, c ∉ lineBoundaries) →
      ∀ c ∈ (String.ofList line.reverse).toList, c ∉ lineBoundaries := by
    intro line h c hc
    rw [String.toList_ofList, List.mem_reverse] at hc
    exact h c hc
  fun_induction cutLines line cs with
  | case1 line hempty => cases hl
  | case2 line hempty =>
    obtain rfl := List.mem_singleton.mp hl
    exact hcut hline
  | case3 line rest ih =>
    rcases List.mem_cons.mp hl with rfl | hl
    · exact hcut hline
    · exact ih (List.forall_mem_nil _) hl
  | case4 line c rest _ hc ih =>
    rcases List.mem_cons.mp hl with rfl | hl
    · exact hcut hline
    · exact ih (List.forall_mem_nil _) hl
  | case5 line c rest _ hc ih =>
    exact ih (List.forall_mem_cons.mpr ⟨isLineBoundary_iff.not.mp hc, hline⟩) hl

/-! ## Files written line by line -/

inductive LineEnd where
  | feed
  | returnFeed
  deriving DecidableEq, Repr

def LineEnd.chars : LineEnd → List Char
  | .feed => ['\n']
  | .returnFeed => ['\r', '\n']

def LineEnd.bytes : LineEnd → Bytes
  | .feed => [0x0A]
  | .returnFeed => [0x0D, 0x0A]

def written (marked : Bool) (rows : List (String × LineEnd)) : Bytes :=
  (if marked then byteOrderMark else []) ++ rows.flatMap fun row => Utf8.encode row.1 ++ row.2.bytes

def rowChars (rows : List (String × LineEnd)) : List Char :=
  rows.flatMap fun row => row.1.toList ++ row.2.chars

def Unbroken (rows : List (String × LineEnd)) : Prop :=
  ∀ row ∈ rows, ∀ c ∈ row.1.toList, c ∉ lineBoundaries

instance (rows : List (String × LineEnd)) : Decidable (Unbroken rows) :=
  decidable_of_iff (rows.all fun row => row.1.toList.all fun c => !lineBoundaries.contains c) <| by
    simp [Unbroken]

section Rows

variable {rows : List (String × LineEnd)}

theorem rowChars_cons (s : String) (e : LineEnd) (rows : List (String × LineEnd)) :
    rowChars ((s, e) :: rows) = s.toList ++ (e.chars ++ rowChars rows) := by
  rw [rowChars, List.flatMap_cons, List.append_assoc, rowChars]

theorem written_false (rows : List (String × LineEnd)) :
    written false rows = (rowChars rows).flatMap String.utf8EncodeChar := by
  have hend : ∀ e : LineEnd, e.bytes = e.chars.flatMap String.utf8EncodeChar := by
    intro e
    cases e <;> rfl
  rw [rowChars, List.flatMap_assoc]
  refine List.flatMap_congr fun row _ => ?_
  rw [List.flatMap_append, ← hend, Utf8.encode]

theorem unifyNewlines_end (e : LineEnd) (cs : List Char) :
    unifyNewlines (e.chars ++ cs) = '\n' :: unifyNewlines cs := by
  cases e with
  | feed => exact unifyNewlines_cons (by decide) cs
  | returnFeed =>
    change unifyNewlines ('\r' :: '\n' :: cs) = _
    rw [unifyNewlines]

theorem splitLines_rowChars (h : Unbroken rows) :
    splitLines (unifyNewlines (rowChars rows)) = rows.map Prod.fst := by
  induction rows with
  | nil => rfl
  | cons row rows ih =>
    obtain ⟨s, e⟩ := row
    obtain ⟨hs, hrows⟩ := List.forall_mem_cons.mp h
    have hreturn : '\r' ∉ s.toList := fun hr => hs '\r' hr (by decide)
    rw [rowChars_cons, unifyNewlines_append hreturn, unifyNewlines_end, splitLines,
      cutLines_append hs, cutLines_feed, List.append_nil, List.reverse_reverse,
      String.ofList_toList, List.map_cons]
    exact congrArg (s :: ·) (ih hrows)

/-! ## Byte order marks -/

theorem dropMark_append (content : Bytes) : dropMark (byteOrderMark ++ content) = content := by
  have hl : ¬(byteOrderMark ++ content).length < 3 := by
    rw [List.length_append]
    exact Nat.not_lt.mpr (Nat.le_add_right 3 _)
  rw [dropMark, if_neg fun h => hl h.1,
    if_pos (List.isPrefixOf_iff_prefix.mpr (List.prefix_append _ _))]
  exact List.drop_left' rfl

/-- The mark is how U+FEFF is encoded, so a file without a mark begins with another character. -/
theorem head?_of_starts_with_mark {cs : List Char}
    (h : byteOrderMark <+: cs.flatMap String.utf8EncodeChar) : cs.head? = some '\uFEFF' := by
  obtain ⟨rest, hrest⟩ := h
  have hmark : byteOrderMark = String.utf8EncodeChar '\uFEFF' := by decide
  rw [← Utf8.decodeLossy_flatMap cs, ← hrest, hmark, Utf8.decodeLossy_encode_append]
  rfl

theorem head?_rowChars_ne (h : ∀ row ∈ rows.head?, row.1.toList.head? ≠ some '\uFEFF') :
    (rowChars rows).head? ≠ some '\uFEFF' := by
  cases rows with
  | nil => simp [rowChars]
  | cons row rows =>
    obtain ⟨s, e⟩ := row
    have hs : s.toList.head? ≠ some '\uFEFF' := h (s, e) rfl
    rw [rowChars_cons]
    cases hc : s.toList with
    | nil => cases e <;> simp [LineEnd.chars]
    | cons c cs => rwa [hc] at hs

/-- Only an empty file of lines is the start of a mark: any other holds a line feed. -/
theorem eq_nil_of_prefix_mark (h : written false rows <+: byteOrderMark) : rows = [] := by
  cases rows with
  | nil => rfl
  | cons row rows =>
    have hfeed : 0x0A ∈ row.2.bytes := by cases row.2 <;> decide
    have hmem : 0x0A ∈ written false (row :: rows) := by
      simp [written, hfeed]
    exact absurd (h.subset hmem) (by decide)

theorem dropMark_written_false (h : ∀ row ∈ rows.head?, row.1.toList.head? ≠ some '\uFEFF') :
    dropMark (written false rows) = written false rows := by
  have hmark : ¬byteOrderMark.isPrefixOf (written false rows) = true := by
    rw [List.isPrefixOf_iff_prefix, written_false]
    exact fun hp => head?_rowChars_ne h (head?_of_starts_with_mark hp)
  rw [dropMark, if_neg hmark]
  split
  next hp =>
    rw [eq_nil_of_prefix_mark (List.isPrefixOf_iff_prefix.mp hp.2)]
    rfl
  next => rfl

theorem sourceLines_written (marked : Bool) (hlines : Unbroken rows)
    (hfirst : ∀ row ∈ rows.head?, row.1.toList.head? ≠ some '\uFEFF') :
    sourceLines (written marked rows) = rows.map Prod.fst := by
  have hdrop : dropMark (written marked rows) = written false rows := by
    cases marked with
    | false => exact dropMark_written_false hfirst
    | true => exact dropMark_append _
  rw [sourceLines, hdrop, written_false, Utf8.decodeLossy_flatMap, splitLines_rowChars hlines]

end Rows

theorem not_mem_lineBoundaries_of_sourceLines {content : Bytes} {l : String}
    (h : l ∈ sourceLines content) : ∀ c ∈ l.toList, c ∉ lineBoundaries :=
  not_mem_lineBoundaries_of_cutLines (List.forall_mem_nil _) h

end Text

namespace FileTree

theorem sourceLines_of_read {files : FileTree} {path : Text} {content : Bytes}
    (h : files.read (Path.ofText path) = .ok content) :
    files.sourceLines path = .ok (Text.sourceLines content) := by
  rw [sourceLines, h]
  rfl

/-- A file of unbroken lines is read as these lines, each at its number; and every file that can
be read has lines without boundaries in them. -/
theorem sourceLines_keep_numbers (files : FileTree) (path : Text) :
    (∀ (marked : Bool) (rows : List (String × Text.LineEnd)), Text.Unbroken rows →
      (∀ row ∈ rows.head?, row.1.toList.head? ≠ some '\uFEFF') →
      files.read (Path.ofText path) = .ok (Text.written marked rows) →
      files.sourceLines path = .ok (rows.map Prod.fst)) ∧
    ∀ content, files.read (Path.ofText path) = .ok content →
      ∃ lines, files.sourceLines path = .ok lines ∧
        ∀ l ∈ lines, ∀ c ∈ l.toList, c ∉ Text.lineBoundaries := by
  refine ⟨fun marked rows hlines hfirst hread => ?_, fun content hread => ?_⟩
  · rw [sourceLines_of_read hread, Text.sourceLines_written marked hlines hfirst]
  · exact ⟨_, sourceLines_of_read hread, fun l => Text.not_mem_lineBoundaries_of_sourceLines⟩

def mixedRows : List (String × Text.LineEnd) :=
  [("", .returnFeed), ("", .feed), ("é;", .returnFeed), ("", .returnFeed), ("", .feed)]

theorem sourceLines_keep_numbers_mixed :
    Text.Unbroken mixedRows ∧
      (∀ row ∈ mixedRows.head?, row.1.toList.head? ≠ some '\uFEFF') ∧
      sourceLines [([[0x61]], .file (Text.written true mixedRows))] "a" =
        .ok ["", "", "é;", "", ""] ∧
      ∃ lines, sourceLines [([[0x61]], .file [0xFF, 0x0C, 0x0D, 0x41])] "a" = .ok lines ∧
        ∀ l ∈ lines, ∀ c ∈ l.toList, c ∉ Text.lineBoundaries := by
  have hlines : Text.Unbroken mixedRows := by decide
  have hfirst : ∀ row ∈ mixedRows.head?, row.1.toList.head? ≠ some '\uFEFF' := by decide
  have hread : ∀ content, read [([[0x61]], .file content)] (Path.ofText "a") = .ok content := by
    intro content
    rfl
  obtain ⟨hwritten, -⟩ :=
    sourceLines_keep_numbers [([[0x61]], .file (Text.written true mixedRows))] "a"
  obtain ⟨-, hany⟩ := sourceLines_keep_numbers [([[0x61]], .file [0xFF, 0x0C, 0x0D, 0x41])] "a"
  exact ⟨hlines, hfirst, hwritten true mixedRows hlines hfirst (hread _), hany _ (hread _)⟩

end FileTree

end NeoListing

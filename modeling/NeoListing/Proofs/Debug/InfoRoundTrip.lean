import NeoListing.Proofs.Debug.InfoSchema
import NeoListing.Proofs.Text.Decimal

/-! # Writing debug information and reading it back

Debug information is written with each number in decimal, each name behind its scope and a comma,
and reads back as it was: numbers show where they end, and no scope holds a comma.
-/

namespace NeoListing

theorem Outcome.mapM_map_eq_ok {ε α β : Type} {read : β → Except ε α} {write : α → β} {xs : List α}
    (h : ∀ x ∈ xs, read (write x) = .ok x) : (xs.map write).mapM read = .ok xs := by
  induction xs with
  | nil => rfl
  | cons x xs ih =>
    rw [List.forall_mem_cons] at h
    rw [List.map_cons, List.mapM_cons, h.1, ih h.2]
    rfl

/-! ## Numbers -/

namespace DebugInfo
open Outcome

def IsShort (n : Int) : Prop := (Nat.toDigits 10 n.natAbs).length ≤ 4300

instance (n : Int) : Decidable (IsShort n) := inferInstanceAs (Decidable (_ ≤ _))

def Numeral.ofInt (n : Int) : Numeral := ⟨decide (n < 0), Nat.toDigits 10 n.natAbs⟩

theorem Numeral.text_ofInt (n : Int) : (ofInt n).text = (toString n).toList := by
  change _ = n.repr.toList
  rw [Int.repr_eq_if, text, ofInt]
  by_cases h : 0 ≤ n
  · have hn : ¬n < 0 := Int.not_lt.mpr h
    have ha : n.natAbs = n.toNat := by omega
    simp [h, hn, ha, Nat.toList_repr]
  · have hn : n < 0 := Int.not_le.mp h
    have ha : n.natAbs = (-n).toNat := by omega
    simp [h, hn, ha, Nat.toList_repr]

theorem Numeral.int_ofInt (n : Int) : (ofInt n).int = n := by
  rw [int, ofInt, Text.digitsValue_toDigits, Text.applySign]
  by_cases h : n < 0
  · simp only [h, decide_true, if_true]
    omega
  · simp only [h, decide_false, Bool.false_eq_true, if_false]
    omega

theorem isNumber_ofInt (n : Int) : IsNumber (Numeral.ofInt n).digits := by
  refine ⟨Nat.toDigits_ne_nil, fun c hc => ?_⟩
  rw [Text.isDigit, Text.digitValue?_of_isDigit (toDigits_isDigit hc)]
  rfl

section Patterns

variable {more : List Piece} {ns : List Numeral} {cs : List Char}

theorem Matches.naturalOfInt {n : Int} (hn : 0 ≤ n) (h : Matches more ns cs) :
    Matches (.natural :: more) (.ofInt n :: ns) ((toString n).toList ++ cs) := by
  have hf : decide (n < 0) = false := decide_eq_false (Int.not_lt.mpr hn)
  have ht : (Numeral.ofInt n).text = (Numeral.ofInt n).digits := by
    rw [Numeral.text, Numeral.ofInt, hf]
    rfl
  have ho : Numeral.ofInt n = ⟨false, (Numeral.ofInt n).digits⟩ := by rw [Numeral.ofInt, hf]
  rw [← Numeral.text_ofInt, ht, ho]
  exact .natural (isNumber_ofInt n) h

theorem Matches.integerOfInt (n : Int) (h : Matches more ns cs) :
    Matches (.integer :: more) (.ofInt n :: ns) ((toString n).toList ++ cs) := by
  rw [← Numeral.text_ofInt]
  exact .integer (isNumber_ofInt n) h

/-- The numbers that a text was written with are read from it. -/
theorem numbersOf_written {pattern : List Piece} {xs : List Int} {s : String}
    (hp : separated pattern = true) (hm : Matches pattern (xs.map .ofInt) s.toList)
    (hs : ∀ x ∈ xs, IsShort x) (refusal : Error) :
    numbersOf pattern refusal (.text s) = .ok xs := by
  have hv : Json.text s = .text ((s.toList ++ []).map CodePoint.scalar) := by
    rw [List.append_nil]
    rfl
  refine (numbersOf_eq_ok_iff hp).mpr ⟨_, ⟨s.toList, [], hv, hm, .inl rfl⟩, ?_, ?_⟩
  · intro n hn
    obtain ⟨x, hx, rfl⟩ := List.mem_map.mp hn
    exact hs x hx
  · have hid : Numeral.int ∘ Numeral.ofInt = id := funext Numeral.int_ofInt
    rw [List.map_map, hid, List.map_id]

end Patterns

/-! ## Points and methods -/

def IsShortNatural (n : Int) : Prop := 0 ≤ n ∧ IsShort n

instance (n : Int) : Decidable (IsShortNatural n) := inferInstanceAs (Decidable (_ ∧ _))

/-- A point that can be written. Only its document may be a number below zero. -/
structure PointWritable (p : SequencePoint) : Prop where
  address : IsShortNatural p.address
  document : IsShort p.document
  startLine : IsShortNatural p.start.line
  startColumn : IsShortNatural p.start.column
  stopLine : IsShortNatural p.stop.line
  stopColumn : IsShortNatural p.stop.column

theorem matches_pointText {p : SequencePoint} (h : PointWritable p) :
    Matches pointPattern ([p.address, p.document, p.start.line, p.start.column, p.stop.line,
      p.stop.column].map .ofInt) (pointText p).toList := by
  have ht : (pointText p).toList = (toString p.address).toList ++ '[' ::
      ((toString p.document).toList ++ ']' :: ((toString p.start.line).toList ++ ':' ::
        ((toString p.start.column).toList ++ '-' :: ((toString p.stop.line).toList ++ ':' ::
          ((toString p.stop.column).toList ++ []))))) := by
    simp [pointText]
  rw [ht]
  have hcolumn := Matches.done.naturalOfInt h.stopColumn.1
  have hstop := (hcolumn.mark ':').naturalOfInt h.stopLine.1
  have hstart := (((hstop.mark '-').naturalOfInt h.startColumn.1).mark ':').naturalOfInt
    h.startLine.1
  exact (((hstart.mark ']').integerOfInt p.document).mark '[').naturalOfInt h.address.1

theorem readPoint_pointText {p : SequencePoint} (h : PointWritable p) :
    readPoint (.text (pointText p)) = .ok p := by
  have hs : ∀ x ∈ [p.address, p.document, p.start.line, p.start.column, p.stop.line,
      p.stop.column], IsShort x := by
    simp [h.address.2, h.document, h.startLine.2, h.startColumn.2, h.stopLine.2, h.stopColumn.2]
  have hn := numbersOf_written separated_point (matches_pointText h) hs
    (.invalidPoint (.text (pointText p)))
  rw [readPoint, hn]
  rfl

/-- A method that can be written: its scope has no comma and its name is not empty. -/
structure MethodWritable (m : DebugMethod) : Prop where
  scope : CodePoint.scalar ',' ∉ m.scope
  name : m.name ≠ []
  first : IsShortNatural m.first
  last : IsShortNatural m.last
  points : ∀ p ∈ m.points, PointWritable p

theorem readRange_rangeText {m : DebugMethod} (h : MethodWritable m) (name : Text) :
    readRange name (.text (rangeText m)) = .ok (m.first, m.last) := by
  have hm : Matches rangePattern ([m.first, m.last].map .ofInt) (rangeText m).toList := by
    have ht : (rangeText m).toList = (toString m.first).toList ++ '-' ::
        ((toString m.last).toList ++ []) := by simp [rangeText]
    rw [ht]
    exact ((Matches.done.naturalOfInt h.last.1).mark '-').naturalOfInt h.first.1
  have hs : ∀ x ∈ [m.first, m.last], IsShort x := by simp [h.first.2, h.last.2]
  have hn := numbersOf_written separated_range hm hs
    (.invalidRange name (.text (rangeText m)))
  rw [readRange, hn]
  rfl

theorem readName_written {scope name : Text} (hs : CodePoint.scalar ',' ∉ scope) (hn : name ≠ []) :
    readName (.text (scope ++ "," ++ name)) = .ok (scope ++ "," ++ name, scope, name) := by
  have hw : scope ++ Text.ofString "," ++ name = scope ++ CodePoint.scalar ',' :: name := by
    simp [Text.ofString]
  have he : name.isEmpty = false := by simpa using hn
  simp only [hw, readName, cut_append hs, he, Bool.false_eq_true, if_false]

theorem readMethod_methodJson {m : DebugMethod} (h : MethodWritable m) :
    readMethod (methodJson m) = .ok m := by
  have hpoints : readPointsOf (m.scope ++ "," ++ m.name)
      (.array (m.points.map fun p => .text (pointText p))) = .ok m.points := by
    rw [readPointsOf, readPoints_eq_mapM]
    exact mapM_map_eq_ok fun p hp => readPoint_pointText (h.points p hp)
  have hname := readName_written h.scope h.name
  have hrange := readRange_rangeText h (m.scope ++ "," ++ m.name)
  rw [methodJson, readMethod_object]
  exact bind_eq_ok_iff.mpr ⟨_, hname, bind_eq_ok_iff.mpr ⟨_, hrange,
    bind_eq_ok_iff.mpr ⟨_, hpoints, rfl⟩⟩⟩

/-! ## The whole -/

/-- Debug information that can be written. Its root, if it has one, is not empty. -/
structure Writable (info : DebugInfo) : Prop where
  root : info.root ≠ some []
  methods : ∀ m ∈ info.methods, MethodWritable m

theorem readDocuments_map_text (ds : List Text) : readDocuments (ds.map .text) = .ok ds := by
  induction ds with
  | nil => rfl
  | cons d ds ih =>
    rw [List.map_cons, readDocuments, ih]
    rfl

theorem readRoot_rootJson {root : Option Text} (h : root ≠ some []) :
    readRoot (rootJson root) = .ok root := by
  cases root with
  | none => rfl
  | some s =>
    have hs : s.isEmpty = false := by
      cases s with
      | nil => exact absurd rfl h
      | cons c s => rfl
    simp [readRoot, rootJson, Json.isTruthy, hs]

/-- Debug information reads back from its written form: the same documents, the same root, and the
same methods with the same points, all in order. -/
theorem ofJson_toJson {info : DebugInfo} (h : info.Writable) : ofJson info.toJson = .ok info := by
  have hmethods : readMethods (info.methods.map methodJson) = .ok info.methods := by
    rw [readMethods_eq_mapM]
    exact mapM_map_eq_ok fun m hm => readMethod_methodJson (h.methods m hm)
  have harrays : HasArrays [("documents", .array (info.documents.map .text)),
      ("document-root", rootJson info.root), ("methods", .array (info.methods.map methodJson))]
      (info.documents.map .text) (info.methods.map methodJson) := ⟨rfl, rfl⟩
  have hdocuments := readDocuments_map_text info.documents
  have hroot := readRoot_rootJson h.root
  rw [toJson, ofJson_of_arrays harrays]
  exact bind_eq_ok_iff.mpr ⟨_, hdocuments, bind_eq_ok_iff.mpr ⟨_, hroot,
    bind_eq_ok_iff.mpr ⟨_, hmethods, rfl⟩⟩⟩

/-- A name with commas behind an empty scope, and a document below zero. -/
theorem ofJson_toJson_sample :
    let info : DebugInfo := ⟨["a.cs", ""], some "src",
      [⟨[], "f,g,", 0, 12, [⟨3, -1, ⟨1, 0⟩, ⟨12, 7⟩⟩, ⟨0, 1, ⟨2, 5⟩, ⟨2, 40⟩⟩]⟩]⟩
    info.Writable ∧
      ofJson (.object [("documents", .array [.text "a.cs", .text ""]),
        ("document-root", .text "src"),
        ("methods", .array [.object [("name", .text ",f,g,"), ("range", .text "0-12"),
          ("sequence-points", .array [.text "3[-1]1:0-12:7", .text "0[1]2:5-2:40"])]])]) =
        .ok info := by
  intro info
  have hfirst : PointWritable ⟨3, -1, ⟨1, 0⟩, ⟨12, 7⟩⟩ :=
    ⟨by decide, by decide, by decide, by decide, by decide, by decide⟩
  have hsecond : PointWritable ⟨0, 1, ⟨2, 5⟩, ⟨2, 40⟩⟩ :=
    ⟨by decide, by decide, by decide, by decide, by decide, by decide⟩
  have hpoints := List.forall_mem_cons.mpr ⟨hfirst, List.forall_mem_singleton.mpr hsecond⟩
  have hmethod : MethodWritable ⟨[], "f,g,", 0, 12, _⟩ :=
    ⟨by decide, by decide, by decide, by decide, hpoints⟩
  have h : info.Writable := ⟨by decide, List.forall_mem_singleton.mpr hmethod⟩
  exact ⟨h, ofJson_toJson h⟩

end DebugInfo

end NeoListing

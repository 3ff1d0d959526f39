import NeoListing.Proofs.Debug.NumberPatterns

/-! # What debug information looks like

The values that are read as debug information, and the only fault that is not a fault of their
structure: a number with too many digits.
-/

namespace NeoListing.DebugInfo
open Outcome

/-! ## Texts with numbers -/

inductive RangeForm : List (List Char) → List Char → Prop where
  | mk (first last : List Char) : RangeForm [first, last] (first ++ '-' :: last)

/-- The numbers of a point, and how they are written. The document may have a minus sign. -/
inductive PointForm : List (List Char) → List Char → Prop where
  | mk {sign : List Char} (hs : sign = [] ∨ sign = ['-'])
    (address document startLine startColumn stopLine stopColumn : List Char) :
    PointForm [address, document, startLine, startColumn, stopLine, stopColumn]
      (address ++ '[' :: (sign ++ document ++ ']' :: (startLine ++ ':' :: (startColumn ++
        '-' :: (stopLine ++ ':' :: stopColumn)))))

section Form

variable {form : List (List Char) → List Char → Prop} {pattern : List Piece} {refusal : Error}
  {v : Json}

/-- A text of a certain form with the given numbers. One line feed may follow. -/
def Written (form : List (List Char) → List Char → Prop) (numbers : List (List Char)) (v : Json) :
    Prop :=
  ∃ core tail, form numbers core ∧ (∀ n ∈ numbers, IsNumber n) ∧ (tail = [] ∨ tail = ['\n']) ∧
    v = .text ((core ++ tail).map CodePoint.scalar)

def Fits (form : List (List Char) → List Char → Prop) (v : Json) : Prop :=
  ∃ numbers, Written form numbers v ∧ ∀ n ∈ numbers, n.length ≤ 4300

def HasOverlong (form : List (List Char) → List Char → Prop) (v : Json) : Prop :=
  ∃ numbers, Written form numbers v ∧ ∃ n ∈ numbers, 4300 < n.length

def Describes (pattern : List Piece) (form : List (List Char) → List Char → Prop) : Prop :=
  ∀ numbers core, form numbers core ∧ (∀ n ∈ numbers, IsNumber n) ↔
    ∃ ns, Matches pattern ns core ∧ ns.map Numeral.digits = numbers

theorem written_iff (hd : Describes pattern form) {numbers : List (List Char)} :
    Written form numbers v ↔
      ∃ ns, HasPattern pattern ns v ∧ ns.map Numeral.digits = numbers := by
  constructor
  · rintro ⟨core, tail, hf, hn, ht, rfl⟩
    obtain ⟨ns, hm, hns⟩ := (hd numbers core).mp ⟨hf, hn⟩
    exact ⟨ns, ⟨core, tail, rfl, hm, ht⟩, hns⟩
  · rintro ⟨ns, ⟨core, tail, rfl, hm, ht⟩, hns⟩
    obtain ⟨hf, hn⟩ := (hd numbers core).mpr ⟨ns, hm, hns⟩
    exact ⟨core, tail, hf, hn, ht, rfl⟩

theorem exists_numbersOf_iff (hp : separated pattern = true) (hd : Describes pattern form) :
    (∃ xs, numbersOf pattern refusal v = .ok xs) ↔ Fits form v := by
  simp only [numbersOf_eq_ok_iff hp, Fits, written_iff hd]
  constructor
  · rintro ⟨xs, ns, hns, hl, -⟩
    exact ⟨_, ⟨ns, hns, rfl⟩, by simpa using hl⟩
  · rintro ⟨_, ⟨ns, hns, rfl⟩, hl⟩
    exact ⟨_, ns, hns, by simpa using hl, rfl⟩

theorem numbersOf_hasOverlong_iff (hp : separated pattern = true) (hd : Describes pattern form)
    (hr : refusal.isNumber = false) :
    FailsByNumber (numbersOf pattern refusal v) ↔ HasOverlong form v := by
  rw [failsByNumber_numbersOf hp hr]
  simp only [HasOverlong, written_iff hd]
  constructor
  · rintro ⟨ns, hns, hl⟩
    exact ⟨_, ⟨ns, hns, rfl⟩, by simpa using hl⟩
  · rintro ⟨_, ⟨ns, hns, rfl⟩, hl⟩
    exact ⟨ns, hns, by simpa using hl⟩

theorem length_of_numbersOf {xs : List Int} (hp : separated pattern = true)
    (hd : Describes pattern form) (h : numbersOf pattern refusal v = .ok xs) :
    ∃ numbers core, form numbers core ∧ xs.length = numbers.length := by
  obtain ⟨ns, ⟨core, tail, -, hm, -⟩, -, rfl⟩ := (numbersOf_eq_ok_iff hp).mp h
  have hf := (hd (ns.map Numeral.digits) core).mpr ⟨ns, hm, rfl⟩
  exact ⟨_, core, hf.1, by simp⟩

end Form

theorem describes_range : Describes rangePattern RangeForm := by
  intro numbers core
  simp only [rangePattern, matches_natural_iff, matches_mark_iff, matches_nil_iff]
  constructor
  · rintro ⟨⟨first, last⟩, hn⟩
    simp only [List.forall_mem_cons] at hn
    obtain ⟨hf, hl, -⟩ := hn
    exact ⟨_, ⟨first, _, _, hf, rfl, rfl, _, rfl, last, _, _, hl, rfl, by simp, rfl, rfl⟩, rfl⟩
  · rintro ⟨_, ⟨first, _, _, hf, rfl, rfl, _, rfl, last, _, _, hl, rfl, rfl, rfl, rfl⟩, rfl⟩
    rw [List.append_nil]
    exact ⟨.mk first last, by simp [hf, hl]⟩

theorem exists_numeral {sign : List Char} (hs : sign = [] ∨ sign = ['-']) (digits : List Char) :
    ∃ n : Numeral, n.digits = digits ∧ n.text = sign ++ digits := by
  rcases hs with rfl | rfl
  · exact ⟨⟨false, digits⟩, rfl, rfl⟩
  · exact ⟨⟨true, digits⟩, rfl, rfl⟩

theorem exists_sign (n : Numeral) :
    ∃ sign, (sign = [] ∨ sign = ['-']) ∧ n.text = sign ++ n.digits := by
  cases h : n.negative with
  | true => exact ⟨['-'], .inr rfl, by simp [Numeral.text, h]⟩
  | false => exact ⟨[], .inl rfl, by simp [Numeral.text, h]⟩

theorem describes_point : Describes pointPattern PointForm := by
  intro numbers core
  simp only [pointPattern, matches_natural_iff, matches_integer_iff, matches_mark_iff,
    matches_nil_iff]
  constructor
  · rintro ⟨⟨hs, address, document, startLine, startColumn, stopLine, stopColumn⟩, hn⟩
    simp only [List.forall_mem_cons] at hn
    obtain ⟨ha, hd, h₁, h₂, h₃, h₄, -⟩ := hn
    obtain ⟨n, rfl, ht⟩ := exists_numeral hs document
    rw [← ht]
    exact ⟨_, ⟨address, _, _, ha, rfl, rfl, _, rfl, n, _, _, hd, rfl, rfl, _, rfl,
      startLine, _, _, h₁, rfl, rfl, _, rfl, startColumn, _, _, h₂, rfl, rfl, _, rfl,
      stopLine, _, _, h₃, rfl, rfl, _, rfl, stopColumn, _, _, h₄, rfl, by simp, rfl, rfl⟩, rfl⟩
  · rintro ⟨_, ⟨address, _, _, ha, rfl, rfl, _, rfl, n, _, _, hd, rfl, rfl, _, rfl,
      startLine, _, _, h₁, rfl, rfl, _, rfl, startColumn, _, _, h₂, rfl, rfl, _, rfl,
      stopLine, _, _, h₃, rfl, rfl, _, rfl, stopColumn, _, _, h₄, rfl, rfl, rfl, rfl⟩, rfl⟩
    obtain ⟨sign, hs, ht⟩ := exists_sign n
    rw [List.append_nil, ht]
    exact ⟨.mk hs _ _ _ _ _ _, by simp [ha, hd, h₁, h₂, h₃, h₄]⟩

theorem separated_range : separated rangePattern = true := by decide

theorem separated_point : separated pointPattern = true := by decide

section Readers

variable {name : Text} {v : Json}

/-- A range that matches its pattern has two numbers. -/
theorem range_total {xs : List Int}
    (h : numbersOf rangePattern (.invalidRange name v) v = .ok xs) : ∃ a b, xs = [a, b] := by
  obtain ⟨numbers, core, hf, hl⟩ := length_of_numbersOf separated_range describes_range h
  cases hf
  match xs, hl with
  | [a, b], _ => exact ⟨a, b, rfl⟩

theorem point_total {xs : List Int}
    (h : numbersOf pointPattern (.invalidPoint v) v = .ok xs) :
    ∃ a b c d e f, xs = [a, b, c, d, e, f] := by
  obtain ⟨numbers, core, hf, hl⟩ := length_of_numbersOf separated_point describes_point h
  cases hf
  match xs, hl with
  | [a, b, c, d, e, f], _ => exact ⟨a, b, c, d, e, f, rfl⟩

theorem exists_readRange_iff : (∃ r, readRange name v = .ok r) ↔ Fits RangeForm v := by
  rw [← exists_numbersOf_iff separated_range describes_range]
  refine exists_bind_eq_ok_of_total fun xs h => ?_
  obtain ⟨a, b, rfl⟩ := range_total h
  exact ⟨_, rfl⟩

theorem readRange_hasOverlong_iff :
    FailsByNumber (readRange name v) ↔ HasOverlong RangeForm v := by
  have hr : (Error.invalidRange name v).isNumber = false := rfl
  rw [← numbersOf_hasOverlong_iff separated_range describes_range hr]
  refine failsWith_bind_of_total fun xs h => ?_
  obtain ⟨a, b, rfl⟩ := range_total h
  exact ⟨_, rfl⟩

theorem exists_readPoint_iff : (∃ p, readPoint v = .ok p) ↔ Fits PointForm v := by
  rw [← exists_numbersOf_iff separated_point describes_point]
  refine exists_bind_eq_ok_of_total fun xs h => ?_
  obtain ⟨a, b, c, d, e, f, rfl⟩ := point_total h
  exact ⟨_, rfl⟩

theorem readPoint_hasOverlong_iff : FailsByNumber (readPoint v) ↔ HasOverlong PointForm v := by
  have hr : (Error.invalidPoint v).isNumber = false := rfl
  rw [← numbersOf_hasOverlong_iff separated_point describes_point hr]
  refine failsWith_bind_of_total fun xs h => ?_
  obtain ⟨a, b, c, d, e, f, rfl⟩ := point_total h
  exact ⟨_, rfl⟩

end Readers

theorem readPoints_eq_mapM (items : List Json) : readPoints items = items.mapM readPoint :=
  eq_mapM readPoints readPoint rfl (fun _ _ => rfl) items

theorem readMethods_eq_mapM (items : List Json) : readMethods items = items.mapM readMethod :=
  eq_mapM readMethods readMethod rfl (fun _ _ => rfl) items

/-! ## Methods -/

def NameFits (v : Json) : Prop :=
  ∃ scope short, v = .text (scope ++ CodePoint.scalar ',' :: short) ∧
    CodePoint.scalar ',' ∉ scope ∧ short ≠ []

section Cut

variable {α : Type} [DecidableEq α] {c : α} {s : List α}

theorem cut_append {before : List α} (h : c ∉ before) (after : List α) :
    Text.cut c (before ++ c :: after) = (before, after) := by
  have hb : ∀ x ∈ before, (x != c) = true := by
    intro x hx
    rw [bne_iff_ne]
    rintro rfl
    exact h hx
  simp [Text.cut, List.takeWhile_append_of_pos hb, List.dropWhile_append_of_pos hb]

theorem cut_of_not_mem (h : c ∉ s) : (Text.cut c s).2 = [] := by
  have hs : s.dropWhile (· != c) = [] := by
    rw [List.dropWhile_eq_nil_iff]
    intro x hx
    rw [bne_iff_ne]
    rintro rfl
    exact h hx
  simp [Text.cut, hs]

end Cut

theorem exists_readName_iff {v : Json} : (∃ r, readName v = .ok r) ↔ NameFits v := by
  cases v with
  | text s =>
    have hread : (∃ r, readName (.text s) = .ok r) ↔ (Text.cut (.scalar ',') s).2 ≠ [] := by
      simp only [readName]
      split
      next h => simpa using h
      next h => simpa using h
    rw [hread]
    constructor
    · intro h
      have hs : CodePoint.scalar ',' ∈ s := not_imp_comm.mp cut_of_not_mem h
      obtain ⟨scope, short, rfl, hc⟩ := List.eq_append_cons_of_mem hs
      rw [cut_append hc] at h
      exact ⟨scope, short, rfl, hc, h⟩
    · rintro ⟨scope, short, hs, hc, hn⟩
      cases hs
      rwa [cut_append hc]
  | _ => simp [readName, NameFits]

theorem failsByNumber_readName (v : Json) : FailsByNumber (readName v) ↔ False := by
  cases v with
  | text s =>
    simp only [readName]
    split <;> simp [Error.isNumber]
  | _ => simp [readName, Error.isNumber]

def valueOf (members : List (Text × Json)) (name : String) (default : Json) : Json :=
  (Json.find? members name).getD default

inductive MethodFits : Json → Prop where
  | mk {members : List (Text × Json)} {points : List Json}
    (hname : NameFits (valueOf members "name" (.text "")))
    (hrange : Fits RangeForm (valueOf members "range" (.text "")))
    (hpoints : valueOf members "sequence-points" (.array []) = .array points)
    (hall : ∀ p ∈ points, Fits PointForm p) : MethodFits (.object members)

/-- A method whose first fault is a number with too many digits. -/
inductive MethodOverlong : Json → Prop where
  | range {members : List (Text × Json)} (hname : NameFits (valueOf members "name" (.text "")))
    (hrange : HasOverlong RangeForm (valueOf members "range" (.text ""))) :
    MethodOverlong (.object members)
  | point {members : List (Text × Json)} {points : List Json}
    (hname : NameFits (valueOf members "name" (.text "")))
    (hrange : Fits RangeForm (valueOf members "range" (.text "")))
    (hpoints : valueOf members "sequence-points" (.array []) = .array points)
    (hfirst : First (Fits PointForm) (HasOverlong PointForm) points) :
    MethodOverlong (.object members)

def readPointsOf (name : Text) (points : Json) : Except Error (List SequencePoint) :=
  match points with
  | .array items => readPoints items
  | _ => .error (.pointsNotAnArray name)

theorem readMethod_object (members : List (Text × Json)) :
    readMethod (.object members) = (do
      let name ← readName (valueOf members "name" (.text ""))
      let range ← readRange name.1 (valueOf members "range" (.text ""))
      let points ← readPointsOf name.1 (valueOf members "sequence-points" (.array []))
      return ⟨name.2.1, name.2.2, range.1, range.2, points⟩) := by
  refine bind_congr fun name => bind_congr fun range => ?_
  unfold valueOf
  cases (Json.find? members "sequence-points").getD (.array []) <;> rfl

section Points

variable {name : Text} {points : Json}

theorem exists_readPointsOf_iff :
    (∃ ps, readPointsOf name points = .ok ps) ↔
      ∃ items, points = .array items ∧ ∀ p ∈ items, Fits PointForm p := by
  cases points with
  | array items =>
    simp [readPointsOf, readPoints_eq_mapM, exists_mapM_eq_ok_iff, exists_readPoint_iff]
  | _ => simp [readPointsOf]

theorem readPointsOf_overlong_iff :
    FailsByNumber (readPointsOf name points) ↔
      ∃ items, points = .array items ∧ First (Fits PointForm) (HasOverlong PointForm) items := by
  cases points with
  | array items =>
    simp [readPointsOf, readPoints_eq_mapM, failsWith_mapM, exists_readPoint_iff,
      readPoint_hasOverlong_iff]
  | _ => simp [readPointsOf, Error.isNumber]

end Points

theorem exists_readMethod_iff {v : Json} : (∃ m, readMethod v = .ok m) ↔ MethodFits v := by
  cases v with
  | object members =>
    simp only [readMethod_object, bind_eq_ok_iff, pure, Except.pure, Except.ok.injEq]
    constructor
    · rintro ⟨m, name, hn, range, hr, points, hp, -⟩
      obtain ⟨items, hi, hall⟩ := exists_readPointsOf_iff.mp ⟨points, hp⟩
      exact .mk (exists_readName_iff.mp ⟨name, hn⟩) (exists_readRange_iff.mp ⟨range, hr⟩) hi hall
    · rintro ⟨hn, hr, hi, hall⟩
      obtain ⟨name, hn⟩ := exists_readName_iff.mpr hn
      obtain ⟨range, hr⟩ := exists_readRange_iff.mpr hr
      obtain ⟨points, hp⟩ := exists_readPointsOf_iff.mpr ⟨_, hi, hall⟩
      exact ⟨_, name, hn, range, hr, points, hp, rfl⟩
  | _ =>
    refine iff_of_false ?_ ?_
    · simp [readMethod]
    · rintro ⟨⟩

theorem readMethod_overlong_iff {v : Json} : FailsByNumber (readMethod v) ↔ MethodOverlong v := by
  cases v with
  | object members =>
    simp only [readMethod_object, failsWith_bind, failsByNumber_readName, readRange_hasOverlong_iff,
      readPointsOf_overlong_iff, false_or, pure, Except.pure, failsWith_ok, and_false, exists_false,
      or_false]
    constructor
    · rintro ⟨name, hn, hr | ⟨range, hr, items, hi, hf⟩⟩
      · exact .range (exists_readName_iff.mp ⟨name, hn⟩) hr
      · exact .point (exists_readName_iff.mp ⟨name, hn⟩) (exists_readRange_iff.mp ⟨range, hr⟩) hi hf
    · rintro (⟨hn, hr⟩ | ⟨hn, hr, hi, hf⟩)
      · obtain ⟨name, hn⟩ := exists_readName_iff.mpr hn
        exact ⟨name, hn, .inl hr⟩
      · obtain ⟨name, hn⟩ := exists_readName_iff.mpr hn
        obtain ⟨range, hr⟩ := exists_readRange_iff.mpr hr
        exact ⟨name, hn, .inr ⟨range, hr, _, hi, hf⟩⟩
  | _ =>
    refine iff_of_false ?_ ?_
    · simp [readMethod, Error.isNumber]
    · rintro ⟨⟩

/-! ## The whole -/

theorem exists_readDocuments_iff {items : List Json} :
    (∃ ds, readDocuments items = .ok ds) ↔ ∀ d ∈ items, ∃ s, d = .text s := by
  induction items with
  | nil => simp [readDocuments]
  | cons v rest ih =>
    rw [List.forall_mem_cons, ← ih]
    cases v with
    | text s => simp [readDocuments, map_eq_ok_iff]
    | _ => simp [readDocuments]

theorem failsByNumber_readDocuments (items : List Json) :
    FailsByNumber (readDocuments items) ↔ False := by
  induction items with
  | nil => simp [readDocuments]
  | cons v rest ih =>
    cases v with
    | text s => rwa [readDocuments, FailsByNumber, failsWith_map]
    | _ => simp [readDocuments, Error.isNumber]

def RootFits (v : Json) : Prop := v.isTruthy = false ∨ ∃ s, v = .text s

theorem exists_readRoot_iff {v : Json} : (∃ r, readRoot v = .ok r) ↔ RootFits v := by
  unfold readRoot RootFits
  cases ht : v.isTruthy with
  | false => simp
  | true => cases v <;> simp

theorem failsByNumber_readRoot (v : Json) : FailsByNumber (readRoot v) ↔ False := by
  unfold readRoot
  cases ht : v.isTruthy with
  | false => simp
  | true => cases v <;> simp [Error.isNumber]

def HasArrays (members : List (Text × Json)) (documents methods : List Json) : Prop :=
  valueOf members "documents" (.array []) = .array documents ∧
    valueOf members "methods" (.array []) = .array methods

/-- The methods of debug information whose documents are texts and whose root is fine. -/
inductive HasMethods : Json → List Json → Prop where
  | mk {members : List (Text × Json)} {documents methods : List Json}
    (harrays : HasArrays members documents methods) (htexts : ∀ d ∈ documents, ∃ s, d = .text s)
    (hroot : RootFits (valueOf members "document-root" .null)) :
    HasMethods (.object members) methods

def Valid (v : Json) : Prop := ∃ methods, HasMethods v methods ∧ ∀ m ∈ methods, MethodFits m

def Overlong (v : Json) : Prop :=
  ∃ methods, HasMethods v methods ∧ First MethodFits MethodOverlong methods

section Object

variable {members : List (Text × Json)} {documents methods : List Json}

theorem ofJson_of_arrays (h : HasArrays members documents methods) :
    ofJson (.object members) = (do
      let documents ← readDocuments documents
      let root ← readRoot (valueOf members "document-root" .null)
      let methods ← readMethods methods
      return ⟨documents, root, methods⟩) := by
  obtain ⟨hd, hm⟩ := h
  unfold valueOf at hd hm
  simp only [ofJson, hd, hm]
  rfl

theorem ofJson_of_other (h : ¬∃ documents methods, HasArrays members documents methods) :
    ofJson (.object members) = .error .notArrays := by
  simp only [ofJson]
  split
  next documents methods hd hm => exact absurd ⟨documents, methods, hd, hm⟩ h
  next => rfl

theorem hasMethods_iff (h : HasArrays members documents methods) {items : List Json} :
    HasMethods (.object members) items ↔
      items = methods ∧ (∃ ds, readDocuments documents = .ok ds) ∧
        ∃ root, readRoot (valueOf members "document-root" .null) = .ok root := by
  rw [exists_readDocuments_iff, exists_readRoot_iff]
  constructor
  · rintro ⟨⟨hd, hm⟩, ht, hr⟩
    cases h.1.symm.trans hd
    cases h.2.symm.trans hm
    exact ⟨rfl, ht, hr⟩
  · rintro ⟨rfl, ht, hr⟩
    exact .mk h ht hr

theorem not_hasMethods_of_other (h : ¬∃ documents methods, HasArrays members documents methods) :
    ¬HasMethods (.object members) methods := by
  rintro ⟨ha, -, -⟩
  exact h ⟨_, _, ha⟩

end Object

theorem exists_ofJson_iff {v : Json} : (∃ info, ofJson v = .ok info) ↔ Valid v := by
  cases v with
  | object members =>
    by_cases h : ∃ documents methods, HasArrays members documents methods
    · obtain ⟨documents, methods, h⟩ := h
      simp only [Valid, hasMethods_iff h, ofJson_of_arrays h, bind_eq_ok_iff, readMethods_eq_mapM,
        ← exists_readMethod_iff]
      constructor
      · rintro ⟨info, ds, hds, root, hr, ms, hms, -⟩
        exact ⟨methods, ⟨rfl, ⟨ds, hds⟩, root, hr⟩, exists_mapM_eq_ok_iff.mp ⟨ms, hms⟩⟩
      · rintro ⟨_, ⟨rfl, ⟨ds, hds⟩, root, hr⟩, hall⟩
        obtain ⟨ms, hms⟩ := exists_mapM_eq_ok_iff.mpr hall
        exact ⟨_, ds, hds, root, hr, ms, hms, rfl⟩
    · simp [ofJson_of_other h, Valid, not_hasMethods_of_other h]
  | _ =>
    refine iff_of_false ?_ ?_
    · simp [ofJson]
    · rintro ⟨_, ⟨⟩, -⟩

theorem ofJson_overlong_iff {v : Json} : FailsByNumber (ofJson v) ↔ Overlong v := by
  cases v with
  | object members =>
    by_cases h : ∃ documents methods, HasArrays members documents methods
    · obtain ⟨documents, methods, h⟩ := h
      simp only [Overlong, hasMethods_iff h, ofJson_of_arrays h, readMethods_eq_mapM,
        failsWith_bind, failsByNumber_readDocuments, failsByNumber_readRoot, failsWith_mapM,
        readMethod_overlong_iff, exists_readMethod_iff, false_or, pure, Except.pure, failsWith_ok,
        and_false, exists_false, or_false]
      constructor
      · rintro ⟨ds, hds, root, hr, hf⟩
        exact ⟨methods, ⟨rfl, ⟨ds, hds⟩, root, hr⟩, hf⟩
      · rintro ⟨_, ⟨rfl, ⟨ds, hds⟩, root, hr⟩, hf⟩
        exact ⟨ds, hds, root, hr, hf⟩
    · simp [ofJson_of_other h, Overlong, not_hasMethods_of_other h, Error.isNumber]
  | _ =>
    refine iff_of_false ?_ ?_
    · simp [ofJson, Error.isNumber]
    · rintro ⟨_, ⟨⟩, -⟩

/-- Debug information is taken just if it has the schema. Otherwise it is refused, but a number with
too many digits has an error of its own if no fault stands before it. -/
theorem ofJson_accepts_exactly (v : Json) :
    ((∃ info, ofJson v = .ok info) ↔ Valid v) ∧
      ((∃ e, ofJson v = .error (.invalidNumber e)) ↔ Overlong v) ∧
      ((∃ e, ofJson v = .error e ∧ e.isNumber = false) ↔ ¬Valid v ∧ ¬Overlong v) := by
  rw [← exists_ofJson_iff, ← ofJson_overlong_iff]
  refine ⟨Iff.rfl, ?_, ?_⟩
  · cases ofJson v with
    | ok info => simp
    | error e => cases e <;> simp [Error.isNumber]
  · cases ofJson v <;> simp

/-- A line feed behind a range is passed over, although the text is then no range. -/
theorem ofJson_accepts_line_feed :
    ofJson (.object [("methods", .array [.object [("name", .text "N,f"),
        ("range", .text "0-1\n")]])]) = .ok ⟨[], none, [⟨"N", "f", 0, 1, []⟩]⟩ ∧
      ¬∃ first last, IsNumber first ∧ IsNumber last ∧
        "0-1\n".toList = first ++ '-' :: last := by
  refine ⟨by cbv, ?_⟩
  rintro ⟨first, last, -, ⟨hne, hl⟩, h⟩
  have hlast : '\n' ∈ last := by
    cases last with
    | nil => exact absurd rfl hne
    | cons c rest =>
      have hend := congrArg List.getLast? h
      rw [List.getLast?_append_of_ne_nil first (List.cons_ne_nil _ _),
        List.getLast?_cons_cons] at hend
      exact List.mem_of_getLast? hend.symm
  exact absurd (hl '\n' hlast) (by decide)

end NeoListing.DebugInfo

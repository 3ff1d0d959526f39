import NeoListing.Proofs.Contract.AnswerFaults
import NeoListing.Proofs.File.Removal

/-! # Manifests beside contract files

A manifest that cannot be used counts as empty, also where some of its methods could be read before
the one that cannot. Two faults are not passed over: an infinite offset, and containers that stand
too deep inside each other.
-/

namespace NeoListing
open Outcome

namespace Json

abbrev Overflows {α : Type} (x : Except ShapeError α) : Prop := FailsWith (· = .infinite) x

variable {v : Json} {name : String}

theorem Overflows.strays {α : Type} {x : Except ShapeError α} (h : Overflows x) : Strays x := by
  obtain ⟨e, he, rfl⟩ := h
  exact ⟨_, he, rfl⟩

theorem overflows_member : Overflows (v.member name) ↔ False :=
  iff_false_intro fun h => strays_member.mp h.strays

theorem overflows_memberOr {default : Json} : Overflows (v.memberOr name default) ↔ False := by
  cases v <;> simp [memberOr]

theorem overflows_items : Overflows v.items ↔ False :=
  iff_false_intro fun h => strays_items.mp h.strays

theorem overflows_toInt : Overflows v.toInt ↔ v.isInfinite = true := by
  refine ⟨fun h => strays_toInt.mp h.strays, fun h => ?_⟩
  cases v with
  | float x =>
    cases x with
    | infinite negative => exact ⟨_, rfl, rfl⟩
    | _ => cases h
  | _ => cases h

end Json

namespace Manifest
open Json

/-! ## Methods -/

def startOf? (method : Json) : Option Int :=
  (method.member? "offset").bind fun offset => offset.toInt.toOption

def nameOf? (method : Json) : Option Text := (method.member? "name").map plain

theorem row_eq_ok_iff {method : Json} {r : Int × Text} :
    row method = .ok r ↔ startOf? method = some r.1 ∧ nameOf? method = some r.2 := by
  simp only [row, bind_eq_ok_iff, member_eq_ok_iff, startOf?, nameOf?, Option.bind_eq_some_iff,
    toOption_eq_some_iff, Option.map_eq_some_iff]
  constructor
  · rintro ⟨offset, ho, start, hs, name, hn, h⟩
    obtain rfl := Except.ok.inj h
    exact ⟨⟨offset, ho, hs⟩, name, hn, rfl⟩
  · rintro ⟨⟨offset, ho, hs⟩, name, hn, hp⟩
    exact ⟨offset, ho, r.1, hs, name, hn, congrArg (fun t => Except.ok (r.1, t)) hp⟩

theorem overflows_row (method : Json) : Overflows (row method) ↔ HasInfiniteOffset method := by
  simp only [row, failsWith_bind, overflows_member, overflows_toInt, member_eq_ok_iff, false_or,
    pure, Except.pure, failsWith_ok, and_false, exists_false, or_false, HasInfiniteOffset]

def IsMethod (method : Json) : Prop :=
  (startOf? method).isSome = true ∧ (nameOf? method).isSome = true

instance (method : Json) : Decidable (IsMethod method) := inferInstanceAs (Decidable (_ ∧ _))

theorem isMethod_iff {method : Json} : IsMethod method ↔ ∃ r, row method = .ok r := by
  simp only [row_eq_ok_iff, IsMethod, Option.isSome_iff_exists]
  constructor
  · rintro ⟨⟨start, hs⟩, name, hn⟩
    exact ⟨(start, name), hs, hn⟩
  · rintro ⟨r, hs, hn⟩
    exact ⟨⟨_, hs⟩, _, hn⟩

/-- The name at an address is that of the first method that starts there. -/
theorem get?_of_rows {methods : List Json} {rows : List (Int × Text)}
    (h : methods.mapM row = .ok rows) (address : Int) :
    Table.get? rows address =
      (methods.find? fun m => startOf? m == some address).bind nameOf? := by
  induction methods generalizing rows with
  | nil =>
    obtain rfl : [] = rows := Except.ok.inj h
    rfl
  | cons m methods ih =>
    simp only [List.mapM_cons, bind_eq_ok_iff] at h
    obtain ⟨⟨start, name⟩, hr, rest, hrest, h⟩ := h
    obtain rfl := Except.ok.inj h
    obtain ⟨hs, hn⟩ := row_eq_ok_iff.mp hr
    -- a later method at the same address is out of reach on both sides
    by_cases ha : start = address
    · rw [List.find?_cons_of_pos (by simp [hs, ha]), Option.bind_some, hn, ← ha]
      exact Table.get?_cons_self start name rest
    · rw [List.find?_cons_of_neg (by simp [hs, ha]), Table.get?_cons_of_ne (Ne.symm ha), ih hrest]

/-! ## Manifests -/

/-- A manifest that lists methods, which may be missing and then are none. -/
def Lists (manifest : Json) (methods : List Json) : Prop :=
  manifest.isObject = true ∧ (interface manifest).isObject = true ∧
    (((interface manifest).member? "methods").getD (.array [])).items = .ok methods

theorem starts_eq_ok_iff {manifest : Json} {t : Table Int Text} :
    starts manifest = .ok t ↔
      ∃ methods rows, Lists manifest methods ∧ methods.mapM row = .ok rows ∧
        t = Table.ofFirstRows rows := by
  simp only [starts, bind_eq_ok_iff, memberOr_eq_ok_iff, rows_eq_mapM]
  constructor
  · rintro ⟨abi, ⟨h, rfl⟩, listed, ⟨hi, rfl⟩, methods, hm, rows, hr, ht⟩
    exact ⟨methods, rows, ⟨h, hi, hm⟩, hr, (Except.ok.inj ht).symm⟩
  · rintro ⟨methods, rows, ⟨h, hi, hm⟩, hr, rfl⟩
    exact ⟨_, ⟨h, rfl⟩, _, ⟨hi, rfl⟩, methods, hm, rows, hr, rfl⟩

theorem overflows_starts (manifest : Json) :
    Overflows (starts manifest) ↔
      ∃ methods, Lists manifest methods ∧ First IsMethod HasInfiniteOffset methods := by
  simp only [starts, failsWith_bind, overflows_memberOr, overflows_items, memberOr_eq_ok_iff,
    rows_eq_mapM, failsWith_mapM, overflows_row, ← isMethod_iff, false_or, pure, Except.pure,
    failsWith_ok, and_false, exists_false, or_false]
  constructor
  · rintro ⟨abi, ⟨h, rfl⟩, listed, ⟨hi, rfl⟩, methods, hm, hf⟩
    exact ⟨methods, ⟨h, hi, hm⟩, hf⟩
  · rintro ⟨methods, ⟨h, hi, hm⟩, hf⟩
    exact ⟨_, ⟨h, rfl⟩, _, ⟨hi, rfl⟩, methods, hm, hf⟩

/-! ## The content of a manifest file -/

variable {machine : Machine}

def Holds (machine : Machine) (content : Bytes) (manifest : Json) : Prop :=
  ∃ s, Text.fileText content = .ok s ∧ Json.read machine.depth s = .ok manifest

def WellFormed (machine : Machine) (content : Bytes) (methods : List Json) : Prop :=
  (∃ manifest, Holds machine content manifest ∧ Lists manifest methods) ∧ ∀ m ∈ methods, IsMethod m

inductive Fatal (machine : Machine) (content : Bytes) : Prop where
  | tooDeep {s : String} (text : Text.fileText content = .ok s)
      (nested : Json.read machine.depth s = .error .tooDeep)
  /-- The methods before the one with the infinite offset are sound. -/
  | infinite {manifest : Json} {methods : List Json} (holds : Holds machine content manifest)
      (lists : Lists manifest methods) (offset : First IsMethod HasInfiniteOffset methods)

theorem read_eq_ok_iff {content : Bytes} {t : Table Int Text} :
    read machine content = .ok t ↔
      ∃ manifest, Holds machine content manifest ∧ starts manifest = .ok t := by
  unfold read Holds
  cases Text.fileText content with
  | error e => simp
  | ok s =>
    cases hj : Json.read machine.depth s with
    | error e => simp [hj]
    | ok v => cases hs : starts v <;> simp [hj, hs]

theorem exists_read_eq_ok_iff {content : Bytes} :
    (∃ t, read machine content = .ok t) ↔ ∃ methods, WellFormed machine content methods := by
  simp only [read_eq_ok_iff, starts_eq_ok_iff, WellFormed, isMethod_iff, ← exists_mapM_eq_ok_iff]
  constructor
  · rintro ⟨t, manifest, hv, methods, rows, hl, hr, rfl⟩
    exact ⟨methods, ⟨manifest, hv, hl⟩, rows, hr⟩
  · rintro ⟨methods, ⟨manifest, hv, hl⟩, rows, hr⟩
    exact ⟨_, manifest, hv, methods, rows, hl, hr, rfl⟩

theorem fatal_iff {content : Bytes} :
    Fatal machine content ↔
      read machine content = .error (.json .tooDeep) ∨
        read machine content = .error (.shape .infinite) := by
  constructor
  · rintro (⟨ht, hd⟩ | ⟨⟨s, ht, hj⟩, hl, hf⟩)
    · exact .inl (by simp only [read, ht, hd])
    · obtain ⟨e, he, rfl⟩ := (overflows_starts _).mpr ⟨_, hl, hf⟩
      exact .inr (by simp only [read, ht, hj, he])
  · intro h
    unfold read at h
    cases ht : Text.fileText content with
    | error e => simp [ht] at h
    | ok s =>
      cases hj : Json.read machine.depth s with
      | error e =>
        obtain rfl : e = .tooDeep := by simpa [ht, hj] using h
        exact .tooDeep ht hj
      | ok v =>
        cases hs : starts v with
        | error e =>
          obtain rfl : e = .infinite := by simpa [ht, hj, hs] using h
          obtain ⟨methods, hl, hf⟩ := (overflows_starts v).mp ⟨_, hs, rfl⟩
          exact .infinite ⟨s, ht, hj⟩ hl hf
        | ok t => simp [ht, hj, hs] at h

theorem accept_of_fatal {content : Bytes} (p : Path) (h : Fatal machine content) :
    accept p (read machine content) = .error .tooDeep ∨
      accept p (read machine content) = .error .infinite := by
  rcases fatal_iff.mp h with h | h
  · exact .inl (by rw [h]; rfl)
  · exact .inr (by rw [h]; rfl)

/-- Any other fault leaves nothing of the manifest. -/
theorem accept_of_fault {content : Bytes} {fault : Fault} (p : Path)
    (h : read machine content = .error fault) (hf : ¬Fatal machine content) :
    accept p (.error fault) = .ok ([], [.unreadableManifest p.text fault.kind]) := by
  rw [fatal_iff, h, not_or] at hf
  unfold accept
  -- the two rows of faults that end in an error are the ones ruled out
  split
  · contradiction
  · next h => exact absurd h hf.2
  · next h => exact absurd h hf.1
  · next h => rw [Except.error.inj h]

theorem load_of_read {files : FileTree} {contract p : Path} {content : Bytes}
    (hp : contract.withSuffix ".manifest.json" = .ok p) (hr : files.read p = .ok content) :
    load machine files contract = accept p (read machine content) := by
  simp only [load, hp, FileTree.isFile_of_read hr, readFile, hr]

/-- A manifest gives the names of all its methods or, where it cannot be used, none and a notice.
Only a fatal fault keeps it from giving a table. -/
theorem load_manifest_whole_or_empty (machine : Machine) {files : FileTree}
    {contract p : Path} {content : Bytes} (hp : contract.withSuffix ".manifest.json" = .ok p)
    (hr : files.read p = .ok content) :
    ((∃ r, load machine files contract = .ok r) ↔ ¬Fatal machine content) ∧
      (Fatal machine content →
        load machine files contract = .error .tooDeep ∨
          load machine files contract = .error .infinite) ∧
      (∀ methods, WellFormed machine content methods →
        ∃ t, load machine files contract = .ok (t, []) ∧
          ∀ address, t.get? address =
            (methods.find? fun m => startOf? m == some address).bind nameOf?) ∧
      ((∀ methods, ¬WellFormed machine content methods) → ¬Fatal machine content →
        ∃ kind, load machine files contract = .ok ([], [.unreadableManifest p.text kind])) := by
  rw [load_of_read hp hr]
  refine ⟨⟨?_, fun hf => ?_⟩, accept_of_fatal p, ?_, fun hw hf => ?_⟩
  · rintro ⟨r, h⟩ hf
    rcases accept_of_fatal p hf with h' | h' <;> rw [h'] at h <;> cases h
  · cases h : read machine content with
    | ok t => exact ⟨(t, []), rfl⟩
    | error fault => exact ⟨_, accept_of_fault p h hf⟩
  · rintro methods ⟨⟨manifest, hv, hl⟩, hm⟩
    obtain ⟨rows, hrows⟩ := exists_mapM_eq_ok_iff.mpr fun m h => isMethod_iff.mp (hm m h)
    have h : read machine content = .ok (Table.ofFirstRows rows) :=
      read_eq_ok_iff.mpr ⟨manifest, hv, starts_eq_ok_iff.mpr ⟨methods, rows, hl, hrows, rfl⟩⟩
    refine ⟨Table.ofFirstRows rows, by rw [h]; rfl, fun address => ?_⟩
    rw [Table.get?_ofFirstRows, get?_of_rows hrows]
  · cases h : read machine content with
    | ok t =>
      obtain ⟨methods, hm⟩ := exists_read_eq_ok_iff.mp ⟨t, h⟩
      exact absurd hm (hw methods)
    | error fault => exact ⟨fault.kind, accept_of_fault p h hf⟩

def sharedAddress : String :=
  "\x7b\"abi\":\x7b\"methods\":[\x7b\"name\":\"f\",\"offset\":0\x7d,
    \x7b\"name\":\"g\",\"offset\":0\x7d]\x7d\x7d"

def sharedAddressMethods : List Json :=
  [.object [("name", .text "f"), ("offset", .int 0)],
    .object [("name", .text "g"), ("offset", .int 0)]]

def secondEmpty : String :=
  "\x7b\"abi\":\x7b\"methods\":[\x7b\"name\":\"f\",\"offset\":0\x7d,\x7b\x7d]\x7d\x7d"

def infiniteOffset : String :=
  "\x7b\"abi\":\x7b\"methods\":[\x7b\"name\":\"f\",\"offset\":1e999\x7d]\x7d\x7d"

def besideOnly (manifest : String) : FileTree :=
  [([Text.Utf8.encode "a.manifest.json"], .file (Text.Utf8.encode manifest))]

theorem wellFormed_sharedAddress :
    WellFormed (.ofDepth 5) (Text.Utf8.encode sharedAddress) sharedAddressMethods := by
  refine ⟨⟨.object [("abi", .object [("methods", .array sharedAddressMethods)])], ?_, rfl, rfl,
    rfl⟩, by decide⟩
  exact ⟨sharedAddress, by cbv, by cbv⟩

/-- Of two methods at one address the first counts. A method that says nothing
takes the one before it along. -/
theorem load_manifest_whole_or_empty_pair :
    (∃ t, load (.ofDepth 5) (besideOnly sharedAddress) (Path.ofText "a.nef") = .ok (t, []) ∧
        t.get? 0 = some (Text.ofString "f")) ∧
      ∃ kind, load (.ofDepth 5) (besideOnly secondEmpty) (Path.ofText "a.nef") =
        .ok ([], [.unreadableManifest (Text.ofString "a.manifest.json") kind]) := by
  have hp : (Path.ofText "a.nef").withSuffix ".manifest.json" =
      .ok (Path.ofText "a.manifest.json") := by cbv
  have hr : ∀ manifest, (besideOnly manifest).read (Path.ofText "a.manifest.json") =
      .ok (Text.Utf8.encode manifest) := fun _ => rfl
  constructor
  · obtain ⟨t, ht, hget⟩ :=
      (load_manifest_whole_or_empty (.ofDepth 5) hp (hr _)).2.2.1 _ wellFormed_sharedAddress
    exact ⟨t, ht, hget 0⟩
  · have h : read (.ofDepth 5) (Text.Utf8.encode secondEmpty) =
        .error (.shape (.noMember "offset")) := by cbv
    refine (load_manifest_whole_or_empty (.ofDepth 5) hp (hr _)).2.2.2 (fun methods hw => ?_)
      fun hf => ?_
    · obtain ⟨t, ht⟩ := exists_read_eq_ok_iff.mpr ⟨methods, hw⟩
      rw [h] at ht
      cases ht
    · rw [fatal_iff, h] at hf
      simp at hf

/-- An infinite offset is fatal. -/
theorem load_manifest_infinite :
    load (.ofDepth 5) (besideOnly infiniteOffset) (Path.ofText "a.nef") = .error .infinite := by
  cbv

end Manifest

end NeoListing

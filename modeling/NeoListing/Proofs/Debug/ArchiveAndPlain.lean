import NeoListing.Proofs.Command.Routes
import NeoListing.Proofs.Json.ReadNewlines

/-! # Debug information in an archive and in a plain file

The plain file is read as lines, with its line endings unified, and the entry of an archive as it
is. The same bytes still give the same debug information, and the same faults, but for what the
message of a fault says of its place.
-/

namespace NeoListing.DebugInfo
open Outcome Text

/-- Two readings that are the same, or that both find debug information that cannot be used. -/
def SameReading {α : Type} (x y : Except LoadError α) : Prop :=
  x = y ∨ ∃ e e', x = .error e ∧ y = .error e' ∧ e.isUnusable = true ∧ e'.isUnusable = true

section SameReading

variable {α β : Type} {x y : Except LoadError α}

theorem SameReading.map (h : SameReading x y) (f : α → β) : SameReading (x.map f) (y.map f) := by
  rcases h with h | ⟨e, e', hx, hy, he, he'⟩
  · exact .inl (congrArg _ h)
  · rw [hx, hy]
    exact .inr ⟨e, e', rfl, rfl, he, he'⟩

theorem SameReading.ok_iff (h : SameReading x y) (a : α) : x = .ok a ↔ y = .ok a := by
  rcases h with h | ⟨e, e', hx, hy, -, -⟩
  · rw [h]
  · rw [hx, hy]
    constructor <;> intro h <;> cases h

theorem SameReading.unusable_iff (h : SameReading x y) :
    (∃ e, x = .error e ∧ e.isUnusable = true) ↔ ∃ e, y = .error e ∧ e.isUnusable = true := by
  rcases h with h | ⟨e, e', hx, hy, he, he'⟩
  · rw [h]
  · exact ⟨fun _ => ⟨e', hy, he'⟩, fun _ => ⟨e, hx, he⟩⟩

theorem SameReading.error_iff (h : SameReading x y) {e : LoadError} (he : e.isUnusable = false) :
    x = .error e ↔ y = .error e := by
  rcases h with h | ⟨f, f', hx, hy, hf, hf'⟩
  · rw [h]
  · rw [hx, hy]
    constructor
    · intro h
      rw [Except.error.inj h, he] at hf
      cases hf
    · intro h
      rw [Except.error.inj h, he] at hf'
      cases hf'

end SameReading

/-! ## Text -/

section Text

variable {machine : Machine}

theorem ofText_of_read_error {s : String} {e : Json.ReadError}
    (h : Json.read machine.depth s = .error e) : ofText machine s = .error (.json e) := by
  simp only [ofText, h]

theorem ofText_congr {s t : String} {v : Json} (hs : Json.read machine.depth s = .ok v)
    (ht : Json.read machine.depth t = .ok v) : ofText machine s = ofText machine t := by
  simp only [ofText, hs, ht]

/-- Faults of JSON that differ in their places at most are the same, or both make debug information
unusable. -/
theorem sameReading_json {α : Type} {e e' : Json.ReadError} (h : e.unplaced = e'.unplaced) :
    SameReading (.error (.json e) : Except LoadError α) (.error (.json e')) := by
  cases e <;> cases e'
  case malformed.malformed => exact .inr ⟨_, _, rfl, rfl, rfl, rfl⟩
  case tooManyDigits.tooManyDigits count count' =>
    obtain rfl : count = count' := Json.ReadError.tooManyDigits.inj h
    exact .inl rfl
  case tooDeep.tooDeep => exact .inl rfl
  all_goals cases h

theorem ofText_unifyNewlines (cs : List Char) :
    SameReading (ofText machine (String.ofList cs))
      (ofText machine (String.ofList (unifyNewlines cs))) := by
  have h := Json.read_unifyNewlines machine.depth cs
  cases hx : Json.read machine.depth (String.ofList cs) with
  | error e =>
    cases hy : Json.read machine.depth (String.ofList (unifyNewlines cs)) with
    | error e' =>
      rw [hx, hy] at h
      rw [ofText_of_read_error hx, ofText_of_read_error hy]
      exact sameReading_json (Except.error.inj h).symm
    | ok v =>
      rw [hx, hy] at h
      cases h
  | ok v =>
    cases hy : Json.read machine.depth (String.ofList (unifyNewlines cs)) with
    | error e =>
      rw [hx, hy] at h
      cases h
    | ok w =>
      rw [hx, hy] at h
      obtain rfl : w = v := Except.ok.inj h
      exact .inl (ofText_congr hx hy)

end Text

/-! ## Files -/

theorem load_of_sideText {machine : Machine} {files : FileTree} {p : Path} {s : String}
    (h : sideText files p = .ok (some s)) :
    load machine files p = (ofText machine s).map some := by
  rw [load, h]
  rfl

section Files

variable {machine : Machine} {files : FileTree} {p archive plain : Path} {packed content : Bytes}
  (ha : p.withSuffix ".nefdbgnfo" = .ok archive) (hp : p.withSuffix ".debug.json" = .ok plain)
include ha hp

theorem load_of_archive (hread : files.read archive = .ok packed)
    (hentry : Zip.read packed plain.name = .ok content) :
    (∀ cs, Utf8.decodeFrom 0 content = .ok cs →
        load machine files p = (ofText machine (String.ofList cs)).map some) ∧
      ∀ e, Utf8.decodeFrom 0 content = .error e →
        load machine files p = .error (.archiveText plain.name archive.text e) := by
  have hfile := FileTree.isFile_of_read hread
  constructor
  · intro cs hd
    apply load_of_sideText
    simp only [sideText, suffixed, ha, hp, bind, Except.bind, content?, hfile, hread, archiveText,
      hentry, Utf8.decode, hd]
    rfl
  · intro e hd
    simp only [load, sideText, suffixed, ha, hp, bind, Except.bind, content?, hfile, hread,
      archiveText, hentry, Utf8.decode, hd]
    rfl

theorem load_of_plain (hnone : files.isFile archive = .ok false)
    (hread : files.read plain = .ok content) :
    (∀ cs, Utf8.decodeFrom 0 content = .ok cs →
        load machine files p = (ofText machine (String.ofList (unifyNewlines cs))).map some) ∧
      ∀ e, Utf8.decodeFrom 0 content = .error e →
        load machine files p = .error (.text plain.text e) := by
  have hfile := FileTree.isFile_of_read hread
  constructor
  · intro cs hd
    apply load_of_sideText
    simp only [sideText, suffixed, ha, hp, bind, Except.bind, content?, hnone, hfile, hread,
      plainText, fileText, hd]
    rfl
  · intro e hd
    simp only [load, sideText, suffixed, ha, hp, bind, Except.bind, content?, hnone, hfile, hread,
      plainText, fileText, hd]
    rfl

end Files

/-- The entry of an archive beside a contract file and a plain file with the same bytes, where
there is no archive, give the same debug information. They also fail alike: one cannot be used
exactly if the other cannot, and faults of another kind are the same. -/
theorem load_archive_iff_plain (machine : Machine) {files files' : FileTree}
    {p archive plain : Path} {packed content : Bytes} (ha : p.withSuffix ".nefdbgnfo" = .ok archive)
    (hp : p.withSuffix ".debug.json" = .ok plain) (harchive : files.read archive = .ok packed)
    (hentry : Zip.read packed plain.name = .ok content)
    (hnone : files'.isFile archive = .ok false) (hplain : files'.read plain = .ok content) :
    (∀ info, load machine files p = .ok info ↔ load machine files' p = .ok info) ∧
      ((∃ e, load machine files p = .error e ∧ e.isUnusable = true) ↔
        ∃ e, load machine files' p = .error e ∧ e.isUnusable = true) ∧
      ∀ e : LoadError, e.isUnusable = false →
        (load machine files p = .error e ↔ load machine files' p = .error e) := by
  obtain ⟨htext, hfault⟩ := load_of_archive ha hp harchive hentry
  obtain ⟨htext', hfault'⟩ := load_of_plain ha hp hnone hplain
  have hsame : SameReading (load machine files p) (load machine files' p) := by
    cases hd : Utf8.decodeFrom 0 content with
    | error e =>
      rw [hfault e hd, hfault' e hd]
      exact .inr ⟨_, _, rfl, rfl, rfl, rfl⟩
    | ok cs =>
      rw [htext cs hd, htext' cs hd]
      exact (ofText_unifyNewlines cs).map some
  exact ⟨hsame.ok_iff, hsame.unusable_iff, fun e he => hsame.error_iff he⟩

def sampleContent : Bytes := Utf8.encode "\x7b\"document-root\":\r\n\"s\"\x7d\r"

def sampleArchive : Bytes :=
  Zip.headerMagic ++ [0x14, 0, 0, 0, 0, 0, 0, 0, 0x21, 0, 0x36, 0x9F, 0xF7, 0x33, 0x18, 0, 0, 0,
    0x18, 0, 0, 0, 0x0C, 0, 0, 0] ++ Utf8.encode "a.debug.json" ++ sampleContent ++
  Zip.directoryMagic ++ [0x14, 0x03, 0x14, 0, 0, 0, 0, 0, 0, 0, 0x21, 0, 0x36, 0x9F, 0xF7, 0x33,
    0x18, 0, 0, 0, 0x18, 0, 0, 0, 0x0C, 0, 0, 0, 0, 0, 0, 0, 0, 0, 0, 0, 0x80, 0x01, 0, 0, 0, 0] ++
    Utf8.encode "a.debug.json" ++
  Zip.endMagic ++ [0, 0, 0, 0, 1, 0, 1, 0, 0x3A, 0, 0, 0, 0x42, 0, 0, 0, 0, 0]

theorem load_archive_iff_plain_sample :
    let files : FileTree := [([Utf8.encode "a.nefdbgnfo"], .file sampleArchive)]
    let files' : FileTree := [([Utf8.encode "a.debug.json"], .file sampleContent)]
    let info : DebugInfo := ⟨[], some "s", []⟩
    load (.ofDepth 2) files' (Path.ofText "a.nef") = .ok (some info) ∧
      load (.ofDepth 2) files (Path.ofText "a.nef") = .ok (some info) := by
  intro files files' info
  have hentry : (Zip.read sampleArchive "a.debug.json").toOption = some sampleContent := by
    decide +kernel
  have hinfo : load (.ofDepth 2) files' (Path.ofText "a.nef") = .ok (some info) := by cbv
  have harchive : files.read (Path.ofText "a.nefdbgnfo") = .ok sampleArchive := by cbv
  have hnone : files'.isFile (Path.ofText "a.nefdbgnfo") = .ok false := by cbv
  have hplain : files'.read (Path.ofText "a.debug.json") = .ok sampleContent := by cbv
  have hiff := load_archive_iff_plain (.ofDepth 2) (p := Path.ofText "a.nef") rfl rfl harchive
    (toOption_eq_some_iff.mp hentry) hnone hplain
  exact ⟨hinfo, (hiff.1 _).mpr hinfo⟩

end NeoListing.DebugInfo

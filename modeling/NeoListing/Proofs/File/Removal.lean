import Mathlib
import NeoListing.File.Tree
import NeoListing.Proofs.TableLookup
import NeoListing.Proofs.Text.Characters
import NeoListing.Proofs.Text.Utf8Codec

/-! # Removing a file

Where a path leads to a file, every place on the way to it is a directory, so that paths with
another last name are decided by what the tree holds at one place. Removing a file changes the
place that it is at and no other.
-/

namespace NeoListing

/-! ## Paths with another last name -/

namespace Path

theorem exists_stem_append (name : Text) : ∃ rest, name = stem name ++ rest := by
  simp only [stem]
  split
  · exact ⟨[], (List.append_nil name).symm⟩
  next h =>
    simp only [Bool.or_eq_true, not_or, List.isEmpty_iff] at h
    have hsplit := List.takeWhile_append_dropWhile (p := (· != CodePoint.scalar '.'))
      (l := name.reverse)
    cases hd : name.reverse.dropWhile (· != CodePoint.scalar '.') with
    | nil =>
      rw [hd] at h
      exact absurd rfl h.2
    | cons dot before =>
      rw [hd] at hsplit
      have hname := congrArg List.reverse hsplit
      rw [List.reverse_append, List.reverse_cons, List.append_assoc, List.reverse_reverse] at hname
      exact ⟨_, hname.symm⟩

def beside (p : Path) (name : Text) : Path := ⟨p.root, p.parts.dropLast ++ [name]⟩

def lead (p : Path) : Text := p.root ++ p.parts.dropLast.flatMap (· ++ Text.ofString "/")

theorem intercalate_concat (separator : Text) (names : List Text) (name : Text) :
    separator.intercalate (names ++ [name]) = names.flatMap (· ++ separator) ++ name := by
  induction names with
  | nil => simp [List.intercalate]
  | cons first rest ih =>
    obtain ⟨second, more, he⟩ : ∃ second more, rest ++ [name] = second :: more :=
      List.exists_cons_of_ne_nil (by simp)
    rw [List.intercalate, he] at ih
    rw [List.intercalate, List.cons_append, he, List.intersperse_cons_cons, List.flatten_cons,
      List.flatten_cons, ih, List.flatMap_cons]
    simp only [List.append_assoc]

theorem text_beside (p : Path) (name : Text) : (p.beside name).text = p.lead ++ name := by
  have hc : ¬((p.beside name).root = [] ∧ (p.beside name).parts.isEmpty = true) := by
    simp [beside]
  rw [text, if_neg hc, beside, intercalate_concat, lead, List.append_assoc]

theorem beside_name {p : Path} (h : p.name ≠ []) : p.beside p.name = p := by
  unfold name at h ⊢
  cases hl : p.parts.getLast? with
  | none =>
    rw [hl] at h
    exact absurd rfl h
  | some last =>
    obtain ⟨before, hp⟩ := List.getLast?_eq_some_iff.mp hl
    rw [beside, Option.getD_some, hp, List.dropLast_concat, ← hp]

theorem withSuffix_eq {p : Path} (h : p.name ≠ []) (suffix : String) :
    p.withSuffix suffix = .ok (p.beside (stem p.name ++ Text.ofString suffix)) :=
  if_neg h

end Path

namespace FileTree

/-! ## Names -/

theorem nameBytes?_append_eq_some_iff {s t : Text} {bs : Bytes} :
    nameBytes? (s ++ t) = some bs ↔
      ∃ xs ys, nameBytes? s = some xs ∧ nameBytes? t = some ys ∧ bs = xs ++ ys := by
  simp only [nameBytes?, List.mapM_append, Option.map_eq_some_iff, Option.bind_eq_bind,
    Option.bind_eq_some_iff, Option.pure_def, Option.some.injEq]
  constructor
  · rintro ⟨-, ⟨xs, hs, ys, ht, rfl⟩, rfl⟩
    exact ⟨_, _, ⟨xs, hs, rfl⟩, ⟨ys, ht, rfl⟩, List.flatten_append⟩
  · rintro ⟨-, -, ⟨xs, hs, rfl⟩, ⟨ys, ht, rfl⟩, rfl⟩
    exact ⟨_, ⟨xs, hs, ys, ht, rfl⟩, List.flatten_append⟩

theorem nameBytes?_ofString (s : String) :
    nameBytes? (Text.ofString s) = some (Text.Utf8.encode s) := by
  have hm : ∀ cs : List Char,
      (cs.map CodePoint.scalar).mapM pointBytes? = some (cs.map String.utf8EncodeChar) := by
    intro cs
    induction cs with
    | nil => rfl
    | cons c cs ih =>
      rw [List.map_cons, List.mapM_cons, ih]
      rfl
  rw [nameBytes?, Text.ofString, hm, Option.map_some, Text.Utf8.encode, List.flatMap_def]

theorem ofString_eq_of_nameBytes? {s t : String}
    (h : nameBytes? (Text.ofString s) = nameBytes? (Text.ofString t)) : s = t := by
  rw [nameBytes?_ofString, nameBytes?_ofString] at h
  rw [← Text.Utf8.text_encode s, Option.some.inj h, Text.Utf8.text_encode]

theorem nameBytes?_singleton (c : CodePoint) : nameBytes? [c] = pointBytes? c := by
  cases h : pointBytes? c <;> simp [nameBytes?, h]

/-- Bytes below 128 stand for characters only: what else a name can hold has other bytes. -/
theorem exists_ofString_of_nameBytes? {t : Text} {bs : Bytes} (h : nameBytes? t = some bs)
    (hb : ∀ b ∈ bs, b.toNat < 0x80) : ∃ s, t = Text.ofString s := by
  induction t generalizing bs with
  | nil => exact ⟨"", rfl⟩
  | cons c t ih =>
    obtain ⟨xs, ys, hc, ht, rfl⟩ := nameBytes?_append_eq_some_iff (s := [c]).mp h
    obtain ⟨s, rfl⟩ := ih ht fun b hy => hb b (List.mem_append_right _ hy)
    cases c with
    | scalar x => exact ⟨String.ofList (x :: s.toList), by simp [Text.ofString]⟩
    | surrogate index =>
      rw [nameBytes?_singleton, pointBytes?] at hc
      split at hc
      next hi =>
        obtain rfl := Option.some.inj hc
        have hlow := hb _ (List.mem_append_left _ (List.mem_singleton_self _))
        rw [UInt8.toNat_ofNat'] at hlow
        omega
      · cases hc

theorem eq_ofString_of_nameBytes? {t : Text} {s : String}
    (hs : ∀ b ∈ Text.Utf8.encode s, b.toNat < 0x80)
    (h : nameBytes? t = some (Text.Utf8.encode s)) : t = Text.ofString s := by
  obtain ⟨r, rfl⟩ := exists_ofString_of_nameBytes? h hs
  rw [ofString_eq_of_nameBytes? (h.trans (nameBytes?_ofString s).symm)]

/-! ## Walks -/

section Walks

variable {tree : FileTree} {here : List Bytes} {names : List Bytes} {name : Bytes}

theorem walk_nil_eq_ok_iff {node : FileNode} :
    tree.walk here [] = .ok node ↔ tree.node? here = some node := by
  rw [walk]
  cases tree.node? here with
  | none => simp
  | some node' => simp

theorem walk_cons_of_directory (h : tree.node? here = some .directory) (name : Bytes)
    (rest : List Bytes) :
    tree.walk here (name :: rest) =
      if 255 < name.length then .error .nameTooLong else tree.walk (step here name) rest := by
  rw [walk]
  simp only [h]

theorem walk_cons_eq_ok_iff {rest : List Bytes} {node : FileNode} :
    tree.walk here (name :: rest) = .ok node ↔
      tree.node? here = some .directory ∧ name.length ≤ 255 ∧
        tree.walk (step here name) rest = .ok node := by
  rcases hn : tree.node? here with _ | (content | _)
  · simp [walk, hn]
  · simp [walk, hn]
  · rw [walk_cons_of_directory hn]
    by_cases hl : 255 < name.length
    · simp [hl]
    · simp only [if_neg hl, true_and]
      exact ⟨fun h => ⟨Nat.le_of_not_lt hl, h⟩, fun h => h.2⟩

theorem node?_of_walk {node : FileNode} (h : tree.walk here names = .ok node) :
    tree.node? (names.foldl step here) = some node := by
  induction names generalizing here with
  | nil => exact walk_nil_eq_ok_iff.mp h
  | cons first rest ih =>
    obtain ⟨-, -, hr⟩ := walk_cons_eq_ok_iff.mp h
    exact ih hr

theorem walk_concat (h : tree.walk here names = .ok .directory) (name : Bytes) :
    tree.walk here (names ++ [name]) =
      if 255 < name.length then .error .nameTooLong
      else tree.walk (step (names.foldl step here) name) [] := by
  induction names generalizing here with
  | nil => exact walk_cons_of_directory (walk_nil_eq_ok_iff.mp h) name []
  | cons first rest ih =>
    obtain ⟨hn, hl, hr⟩ := walk_cons_eq_ok_iff.mp h
    rw [List.cons_append, walk_cons_of_directory hn, if_neg (Nat.not_lt.mpr hl), ih hr]
    rfl

theorem walk_of_walk_concat {node : FileNode} (h : tree.walk here (names ++ [name]) = .ok node) :
    tree.walk here names = .ok .directory := by
  induction names generalizing here with
  | nil =>
    obtain ⟨hn, -, -⟩ := walk_cons_eq_ok_iff.mp h
    exact walk_nil_eq_ok_iff.mpr hn
  | cons first rest ih =>
    obtain ⟨hn, hl, hr⟩ := walk_cons_eq_ok_iff.mp h
    exact walk_cons_eq_ok_iff.mpr ⟨hn, hl, ih hr⟩

end Walks

/-! ## Removing a file -/

def Way.place (way : Way) : List Bytes := way.names.foldl step way.start

def remove (tree : FileTree) (p : Path) : FileTree :=
  match way? p with
  | none => tree
  | some way =>
    if tree.isFile p = .ok true then tree.filter (fun row => row.1 != way.place) else tree

theorem isFile_eq_true_iff {tree : FileTree} {p : Path} :
    tree.isFile p = .ok true ↔
      ∃ way content, way? p = some way ∧ hasNull p = false ∧ way.length < 4096 ∧
        tree.walk way.start way.names = .ok (.file content) := by
  unfold isFile find
  cases hw : way? p with
  | none => simp
  | some way =>
    cases hn : hasNull p with
    | true => simp
    | false =>
      by_cases hl : 4096 ≤ way.length
      · simp [hl, Nat.not_lt.mpr hl]
      · have hlt : way.length < 4096 := Nat.lt_of_not_le hl
        rcases hf : tree.walk way.start way.names with fault | (content | _)
        · cases fault <;> simp [hl, hf]
        · simp [hl, hf, hlt]
        · simp [hl, hf]

/-- A path leads to a file just if it can be read. -/
theorem isFile_eq_true_iff_read {tree : FileTree} {p : Path} :
    tree.isFile p = .ok true ↔ ∃ content, tree.read p = .ok content := by
  unfold isFile read
  cases hw : way? p with
  | none => simp
  | some way =>
    cases hn : hasNull p with
    | true => simp
    | false =>
      rcases hf : tree.find way with fault | (content | _)
      · cases fault <;> simp [hf]
      · simp [hf]
      · simp [hf]

theorem isFile_of_read {tree : FileTree} {p : Path} {content : Bytes}
    (h : tree.read p = .ok content) : tree.isFile p = .ok true :=
  isFile_eq_true_iff_read.mpr ⟨content, h⟩

section Remove

variable {tree : FileTree} {p : Path} {way : Way}

theorem node?_place_of_isFile (hw : way? p = some way) (h : tree.isFile p = .ok true) :
    ∃ content, tree.node? way.place = some (.file content) := by
  obtain ⟨way', content, hw', -, -, hf⟩ := isFile_eq_true_iff.mp h
  obtain rfl := Option.some.inj (hw.symm.trans hw')
  exact ⟨content, node?_of_walk hf⟩

theorem remove_of_isFile (hw : way? p = some way) (h : tree.isFile p = .ok true) :
    tree.remove p = tree.filter fun row => row.1 != way.place := by
  simp only [remove, hw, if_pos h]

theorem remove_of_not_isFile (h : tree.isFile p ≠ .ok true) : tree.remove p = tree := by
  unfold remove
  split
  · rfl
  · rw [if_neg h]

/-- Removing a file changes no other place. -/
theorem node?_remove_of_ne (hw : way? p = some way) {place : List Bytes} (h : place ≠ way.place) :
    (tree.remove p).node? place = tree.node? place := by
  by_cases hf : tree.isFile p = .ok true
  · rw [remove_of_isFile hw hf, node?, node?, Table.get?_filter_of_ne h]
  · rw [remove_of_not_isFile hf]

theorem node?_remove_self (hw : way? p = some way) (h : tree.isFile p = .ok true) :
    (tree.remove p).node? way.place = none := by
  obtain ⟨content, hn⟩ := node?_place_of_isFile hw h
  rw [node?] at hn
  split at hn
  · cases hn
  next hd => rw [remove_of_isFile hw h, node?, if_neg hd, Table.get?_filter_self]

theorem node?_remove_of_directory {place : List Bytes}
    (h : tree.node? place = some .directory) : (tree.remove p).node? place = some .directory := by
  by_cases hf : tree.isFile p = .ok true
  · obtain ⟨way, -, hw, -⟩ := isFile_eq_true_iff.mp hf
    rw [node?_remove_of_ne hw, h]
    rintro rfl
    obtain ⟨content, hn⟩ := node?_place_of_isFile hw hf
    rw [h] at hn
    cases hn
  · rw [remove_of_not_isFile hf, h]

theorem walk_remove {here names : List Bytes} (h : tree.walk here names = .ok .directory) :
    (tree.remove p).walk here names = .ok .directory := by
  induction names generalizing here with
  | nil => exact walk_nil_eq_ok_iff.mpr (node?_remove_of_directory (walk_nil_eq_ok_iff.mp h))
  | cons first rest ih =>
    obtain ⟨hn, hl, hr⟩ := walk_cons_eq_ok_iff.mp h
    exact walk_cons_eq_ok_iff.mpr ⟨node?_remove_of_directory hn, hl, ih hr⟩

end Remove

/-! ## The directory of a file -/

/-- The directory of a path can be reached. It is at `base`, and the path is written with
`lead` bytes before its last name. -/
structure Reaches (tree : FileTree) (p : Path) (base : List Bytes) (lead : Nat) : Prop where
  directory : ∃ names, p.parts.dropLast.mapM nameBytes? = some names ∧
    tree.walk (if p.root = [] then [] else [rootName]) names = .ok .directory ∧
    base = names.foldl step (if p.root = [] then [] else [rootName])
  lead : ∃ bytes, nameBytes? p.lead = some bytes ∧ bytes.length = lead
  noNull : p.lead.any (·.toNat == 0) = false

def look (tree : FileTree) (base : List Bytes) (lead : Nat) (name : Bytes) :
    Except FileFault FileNode :=
  if 4096 ≤ lead + name.length ∨ 255 < name.length then .error .nameTooLong
  else tree.walk (step base name) []

section Directory

variable {tree tree' : FileTree} {p : Path} {base : List Bytes} {lead : Nat} {t : Text}

theorem hasNull_beside (h : tree.Reaches p base lead) (t : Text) :
    hasNull (p.beside t) = t.any (·.toNat == 0) := by
  rw [hasNull, Path.text_beside, List.any_append, h.noNull, Bool.false_or]

theorem way?_beside (h : tree.Reaches p base lead) {name : Bytes} (hn : nameBytes? t = some name) :
    ∃ way, way? (p.beside t) = some way ∧ way.place = step base name ∧
      ∀ other : FileTree, other.Reaches p base lead →
        other.find way = other.look base lead name := by
  obtain ⟨names, hnames, -, hbase⟩ := h.directory
  obtain ⟨bytes, hbytes, hlead⟩ := h.lead
  have hwhole : nameBytes? (p.beside t).text = some (bytes ++ name) := by
    rw [Path.text_beside]
    exact nameBytes?_append_eq_some_iff.mpr ⟨bytes, name, hbytes, hn, rfl⟩
  have hparts : (p.beside t).parts.mapM nameBytes? = some (names ++ [name]) := by
    rw [Path.beside, List.mapM_append, hnames, List.mapM_cons, hn]
    rfl
  let start : List Bytes := if p.root = [] then [] else [rootName]
  refine ⟨⟨start, names ++ [name], (bytes ++ name).length⟩, ?_, ?_, ?_⟩
  · rw [way?, hparts, hwhole]
    rfl
  · rw [Way.place, List.foldl_append, ← hbase]
    rfl
  · intro other ho
    obtain ⟨names', hnames', hwalk, -⟩ := ho.directory
    obtain rfl := Option.some.inj (hnames.symm.trans hnames')
    simp only [find, look, List.length_append, hlead]
    rw [walk_concat hwalk, ← hbase]
    by_cases hl : 4096 ≤ lead + name.length
    · simp [hl]
    · simp [hl]

theorem way?_beside_none (hn : nameBytes? t = none) : way? (p.beside t) = none := by
  have hparts : (p.beside t).parts.mapM nameBytes? = none := by
    rw [Path.beside, List.mapM_append]
    cases p.parts.dropLast.mapM nameBytes? with
    | none => rfl
    | some names =>
      rw [List.mapM_cons, hn]
      rfl
  rw [way?, hparts]
  rfl

/-- What is read by a name depends on one place only. -/
theorem read_beside_congr (h : tree.Reaches p base lead) (h' : tree'.Reaches p base lead)
    (ht : ∀ name, nameBytes? t = some name →
      tree'.node? (step base name) = tree.node? (step base name)) :
    tree'.isFile (p.beside t) = tree.isFile (p.beside t) ∧
      tree'.read (p.beside t) = tree.read (p.beside t) := by
  cases hn : nameBytes? t with
  | none =>
    have hw := way?_beside_none (p := p) hn
    simp only [isFile, read, hw, and_self]
  | some name =>
    obtain ⟨way, hw, -, hfind⟩ := way?_beside h hn
    have hlook : tree'.look base lead name = tree.look base lead name := by
      simp only [look, walk, ht name hn]
    have hf : tree'.find way = tree.find way := by
      rw [hfind tree' h', hfind tree h, hlook]
    simp only [isFile, read, hw, hf, and_self]

theorem Reaches.remove (h : tree.Reaches p base lead) (q : Path) :
    (tree.remove q).Reaches p base lead := by
  obtain ⟨names, hnames, hwalk, hbase⟩ := h.directory
  exact ⟨⟨names, hnames, walk_remove hwalk, hbase⟩, h.lead, h.noNull⟩

theorem exists_reaches (hn : p.name ≠ []) (h : tree.isFile p = .ok true) :
    ∃ base lead, tree.Reaches p base lead := by
  rw [← Path.beside_name hn] at h
  obtain ⟨way, content, hw, hnull, -, hwalk⟩ := isFile_eq_true_iff.mp h
  simp only [way?, Option.bind_eq_bind, Option.bind_eq_some_iff, Option.pure_def,
    Option.some.injEq] at hw
  obtain ⟨all, hall, whole, hwhole, rfl⟩ := hw
  rw [Path.text_beside] at hwhole
  obtain ⟨bytes, last, hbytes, -, -⟩ := nameBytes?_append_eq_some_iff.mp hwhole
  rw [hasNull, Path.text_beside, List.any_append, Bool.or_eq_false_iff] at hnull
  simp only [Path.beside, List.mapM_append, Option.bind_eq_bind, Option.bind_eq_some_iff,
    Option.pure_def, Option.some.injEq] at hall
  obtain ⟨names, hnames, lasts, hlasts, rfl⟩ := hall
  simp only [List.mapM_cons, List.mapM_nil, Option.bind_eq_bind, Option.bind_eq_some_iff,
    Option.pure_def, Option.some.injEq] at hlasts
  obtain ⟨name, -, -, rfl, rfl⟩ := hlasts
  exact ⟨_, _, ⟨names, hnames, walk_of_walk_concat hwalk, rfl⟩, ⟨bytes, hbytes, rfl⟩, hnull.1⟩

theorem step_of_ne {name : Bytes} (h : name ≠ upName) (here : List Bytes) :
    step here name = here ++ [name] := if_neg h

theorem step_ne_concat {name other : Bytes} (h : name ≠ other) (hu : other ≠ upName)
    (base : List Bytes) : step base name ≠ base ++ [other] := by
  unfold step above
  split
  -- a step upwards ends at the root, at a place above the working directory or at a shorter one
  · split
    · simp
    · split
      · simpa using Ne.symm hu
      · intro he
        have hl := congrArg List.length he
        simp only [List.length_dropLast, List.length_append, List.length_singleton] at hl
        omega
  · simpa using h

/-- Removing a file leaves those beside it. -/
theorem read_remove_beside (h : tree.Reaches p base lead) {u : Text}
    (hne : ∀ name, nameBytes? t = some name → nameBytes? u ≠ some name)
    (hup : nameBytes? u ≠ some upName) :
    (tree.remove (p.beside u)).isFile (p.beside t) = tree.isFile (p.beside t) ∧
      (tree.remove (p.beside u)).read (p.beside t) = tree.read (p.beside t) := by
  refine read_beside_congr h (h.remove _) ?_
  intro name hn
  cases hu : nameBytes? u with
  | none => rw [FileTree.remove, way?_beside_none hu]
  | some other =>
    have hother : other ≠ upName := fun he => hup (he ▸ hu)
    have hdiff : name ≠ other := fun he => hne name hn (he ▸ hu)
    obtain ⟨way, hw, hplace, -⟩ := way?_beside h hu
    refine node?_remove_of_ne hw ?_
    rw [hplace, step_of_ne hother]
    exact step_ne_concat hdiff hother base

theorem isFile_remove_self (h : tree.Reaches p base lead) (t : Text) :
    (tree.remove (p.beside t)).isFile (p.beside t) =
      (tree.isFile (p.beside t)).map fun _ => false := by
  by_cases hf : tree.isFile (p.beside t) = .ok true
  · obtain ⟨way, content, hw, hnull, hlength, -⟩ := isFile_eq_true_iff.mp hf
    have hgone := node?_remove_self hw hf
    rw [hf]
    cases hn : nameBytes? t with
    | none =>
      rw [way?_beside_none hn] at hw
      cases hw
    | some name =>
      obtain ⟨way', hw', hplace, hfind⟩ := way?_beside h hn
      obtain rfl := Option.some.inj (hw.symm.trans hw')
      have hlook : tree.look base lead name ≠ .error .nameTooLong := by
        intro hl
        rw [← hfind tree h] at hl
        simp only [isFile, hw, hnull, hl] at hf
        cases hf
      have hshort : ¬(4096 ≤ lead + name.length ∨ 255 < name.length) := by
        intro hl
        exact hlook (if_pos hl)
      rw [hplace] at hgone
      have hnone : (tree.remove (p.beside t)).find way = .error .notFound := by
        rw [hfind _ (h.remove _), look, if_neg hshort, walk, hgone]
      simp only [isFile, hw, hnull, hnone]
      rfl
  · rw [remove_of_not_isFile hf]
    rcases hb : tree.isFile (p.beside t) with e | (_ | _)
    · rfl
    · rfl
    · exact absurd hb hf

theorem isFile_beside_eq_error_iff (h : tree.Reaches p base lead) {e : FileError} :
    tree.isFile (p.beside t) = .error e ↔
      ∃ name, nameBytes? t = some name ∧ t.any (·.toNat == 0) = false ∧
        (4096 ≤ lead + name.length ∨ 255 < name.length) ∧
        e = .cannotRead .nameTooLong (p.beside t).text := by
  have hnull := hasNull_beside h t
  cases hn : nameBytes? t with
  | none => simp [isFile, way?_beside_none hn]
  | some name =>
    obtain ⟨way, hw, -, hfind⟩ := way?_beside h hn
    cases ht : t.any (·.toNat == 0) with
    | true =>
      rw [ht] at hnull
      simp [isFile, hw, hnull]
    | false =>
      rw [ht] at hnull
      by_cases hl : 4096 ≤ lead + name.length ∨ 255 < name.length
      · simp [isFile, hw, hnull, hfind tree h, look, hl, eq_comm]
      · have hwalk : tree.walk (step base name) [] ≠ .error .nameTooLong := by
          rw [walk]
          split <;> simp
        rcases hr : tree.walk (step base name) [] with fault | (content | _)
        · cases fault with
          | nameTooLong => exact absurd hr hwalk
          | _ => simp [isFile, hw, hnull, hfind tree h, look, hl, hr]
        · simp [isFile, hw, hnull, hfind tree h, look, hl, hr]
        · simp [isFile, hw, hnull, hfind tree h, look, hl, hr]

end Directory

end FileTree

end NeoListing

import NeoListing.Proofs.Debug.DocumentCache
import NeoListing.Proofs.FirstFault
import NeoListing.Proofs.Listing.CommentDefined
import NeoListing.Proofs.Listing.Landmarks
import NeoListing.Proofs.Listing.PlanSteps
import NeoListing.Proofs.Vm.ScriptNormalForm

/-! # Plans by their definition

The plan of a script is the row of the entries of its instructions. Which entries an
instruction has is said here from the debug information itself, without tables, without a cache
and without the order in which documents are read.
-/

namespace NeoListing

def SequencePoint.covered (p : SequencePoint) (line : Text) : Text :=
  let tail := line.drop (p.start.column - 1).toNat
  if p.start.line = p.stop.line then tail.take (p.stop.column - p.start.column).toNat else tail

theorem sourceText_eq (lines : List Text) (p : SequencePoint) :
    sourceText lines p.start p.stop =
      if 1 ≤ p.start.line ∧ p.start.line ≤ lines.length then
        some (p.covered (lines.getD (p.start.line - 1).toNat []))
      else none := by
  unfold sourceText
  by_cases hl : p.start.line < 1
  · rw [if_pos hl, if_neg (by omega)]
  · rw [if_neg hl]
    by_cases hn : (p.start.line - 1).toNat < lines.length
    · rw [if_pos (by omega), List.getElem?_eq_getElem hn, List.getD_eq_getElem _ _ hn]
      rfl
    · rw [if_neg (by omega), List.getElem?_eq_none (by omega)]

namespace DebugInfo

variable (info : DebugInfo) (lines : Text → List Text)

/-- The source line of a sequence point whose document is one of those listed and whose first
line is one of that document's. -/
def sourceLine (p : SequencePoint) : List Entry :=
  if 0 ≤ p.document ∧ p.document < info.documents.length then
    let path := info.documentPath (info.documents.getD p.document.toNat [])
    if 1 ≤ p.start.line ∧ p.start.line ≤ (lines path).length then
      [.source p.address (DocumentName.ofPath path) p.start.line
        (p.covered ((lines path).getD (p.start.line - 1).toNat []))]
    else []
  else []

/-- The entries of one instruction. Of several records for its address the first counts, even
one that leads to no source line. -/
def entriesAt (i : Instruction) (comment : Text) : List Entry :=
  ((info.firstStart? i.address).map fun m => .methodStart i.address m.fullName).toList
    ++ (info.firstPoint? i.address).elim [] (info.sourceLine lines)
    ++ [.instruction i.address i.opcode.name (Bytes.dashed i.operand) comment]
    ++ ((info.firstEnd? i.address).map fun m => .methodEnd i.address m.fullName).toList

end DebugInfo

namespace Plan
open Outcome

variable {ε : Type}

def namedEntriesAt (names : Table Int Text) (i : Instruction) (comment : Text) : List Entry :=
  ((names.get? i.address).map (.methodStart i.address)).toList
    ++ [.instruction i.address i.opcode.name (Bytes.dashed i.operand) comment]

def reference (entriesAt : Instruction → Text → List Entry) (context : Comment.Context)
    (is : List Instruction) : Except Comment.Error (List Entry) :=
  (is.mapM (Comment.ofInstruction context)).map fun comments =>
    (List.zipWith entriesAt is comments).flatten

def sourceAt (sources : Sources ε) (marks : Landmarks) (address : Int) : Maker ε (List Entry) :=
  match marks.points.get? address with
  | some p => sourceEntry sources p
  | none => pure []

def surround (marks : Landmarks) (source : List Entry) (i : Instruction) (comment : Text) :
    List Entry :=
  ((marks.starts.get? i.address).map (Entry.methodStart i.address)).toList ++ source
    ++ [.instruction i.address i.opcode.name (Bytes.dashed i.operand) comment]
    ++ ((marks.ends.get? i.address).map (Entry.methodEnd i.address)).toList

def finish (sources : Sources ε) (marks : Landmarks) (i : Instruction) (source : List Entry) :
    Maker ε (List Entry) :=
  match Comment.ofInstruction sources.context i with
  | .ok comment => return surround marks source i comment
  | .error e => throw (.comment e)

theorem group_eq (sources : Sources ε) (marks : Landmarks) (i : Instruction) :
    group sources marks i = sourceAt sources marks i.address >>= finish sources marks i := by
  have hf : ∀ source, finish sources marks i source = (do
      let instruction ← instructionEntry sources.context i
      return ((marks.starts.get? i.address).map (Entry.methodStart i.address)).toList ++ source
        ++ [instruction]
        ++ ((marks.ends.get? i.address).map (Entry.methodEnd i.address)).toList) := by
    intro source
    unfold finish instructionEntry
    cases Comment.ofInstruction sources.context i <;> rfl
  unfold group sourceAt
  simp only [funext hf]
  cases marks.points.get? (i.address : Int) <;> rfl

section Reference

variable {entriesAt : Instruction → Text → List Entry} {context : Comment.Context}
  {i : Instruction} {is : List Instruction}

theorem reference_cons_error {e : Comment.Error}
    (h : Comment.ofInstruction context i = .error e) :
    reference entriesAt context (i :: is) = .error e := by
  simp only [reference, List.mapM_cons, h]
  rfl

theorem reference_cons_ok {comment : Text} (h : Comment.ofInstruction context i = .ok comment) :
    reference entriesAt context (i :: is) =
      (reference entriesAt context is).map (entriesAt i comment ++ ·) := by
  simp only [reference, List.mapM_cons, h]
  cases is.mapM (Comment.ofInstruction context) <;> rfl

end Reference

section Run

variable {sources : Sources ε} {marks : Landmarks}

theorem run_groups_cons {i : Instruction} {rest : List Instruction} {p p' : Progress}
    {entries : List Entry} (h : (group sources marks i).run.run p = (.ok entries, p')) :
    ((groups sources marks (i :: rest)).run.run p).1 =
      ((groups sources marks rest).run.run p').1.map (entries ++ ·) := by
  rw [groups, run_bind_of_ok h]
  rcases hm : (groups sources marks rest).run.run p' with ⟨e | more, p''⟩
  · rw [run_bind_of_error hm]
    rfl
  · rw [run_bind_of_ok hm]
    rfl

/-- If every source part runs to `source` and keeps what it needs for that, then the plan is the
row of its groups. -/
theorem run_groups (source : Int → List Entry) (Kept : Progress → Prop)
    (hs : ∀ address p, Kept p → ∃ p', (sourceAt sources marks address).run.run p =
      (.ok (source address), p') ∧ Kept p')
    (is : List Instruction) {p : Progress} (hp : Kept p) :
    ((groups sources marks is).run.run p).1 =
      (reference (fun i => surround marks (source i.address) i) sources.context is).mapError
        .comment := by
  induction is generalizing p with
  | nil => rfl
  | cons i rest ih =>
    obtain ⟨p', hr, hk⟩ := hs i.address p hp
    have hg : (group sources marks i).run.run p =
        (finish sources marks i (source i.address)).run.run p' := by
      rw [group_eq, run_bind_of_ok hr]
    cases hc : Comment.ofInstruction sources.context i with
    | error e =>
      have hf : (group sources marks i).run.run p = (.error (.comment e), p') := by
        rw [hg]
        simp only [finish, hc]
        rfl
      rw [groups, run_bind_of_error hf, reference_cons_error hc]
      rfl
    | ok comment =>
      have hf : (group sources marks i).run.run p =
          (.ok (surround marks (source i.address) i comment), p') := by
        rw [hg]
        simp only [finish, hc]
        rfl
      rw [run_groups_cons hf, ih hk, reference_cons_ok hc]
      cases reference (fun i => surround marks (source i.address) i) sources.context rest <;> rfl

end Run

section WithDebugInfo

variable {info : DebugInfo} {lookup : Text → Except ε (List Text)} {lines : Text → List Text}
  {names : Table Int Text} {context : Comment.Context}

theorem read_eq_ok (hl : ∀ d ∈ info.documents, lookup (info.documentPath d) =
      .ok (lines (info.documentPath d))) (index : Int) :
    Document.read info lookup index =
      .ok ((info.pathAt? index).map fun path => ⟨DocumentName.ofPath path, lines path⟩) := by
  unfold Document.read
  rw [info.pathAt?_eq]
  by_cases hi : 0 ≤ index ∧ index < info.documents.length
  · have hn : index.toNat < info.documents.length := by omega
    have hd : info.documents.getD index.toNat [] ∈ info.documents := by
      rw [List.getD_eq_getElem _ _ hn]
      exact List.getElem_mem hn
    rw [if_pos hi]
    simp only [hl _ hd]
    rfl
  · rw [if_neg hi]
    rfl

theorem run_document? (names : Table Int Text) (context : Comment.Context) {index : Int}
    {document : Option Document} {p : Progress}
    (hp : DocumentCache.Faithful info lookup p.cache)
    (hr : Document.read info lookup index = .ok document) :
    ∃ p', (document? ⟨some info, names, context, lookup⟩ index).run.run p = (.ok document, p') ∧
      DocumentCache.Faithful info lookup p'.cache := by
  obtain ⟨hg, hf⟩ := Document.get_spec hp index
  rw [hr] at hg
  refine ⟨⟨(Document.get info lookup p.cache index).cache,
    p.lookedUp ++ (Document.get info lookup p.cache index).lookedUp.toList, p.notices⟩, ?_, hf⟩
  have hs : (get : Maker ε Progress).run.run p = (.ok p, p) := rfl
  rw [document?]
  simp only [run_bind_of_ok hs, hg]
  rfl

theorem run_sourceEntry (hl : ∀ d ∈ info.documents, lookup (info.documentPath d) =
      .ok (lines (info.documentPath d))) (point : SequencePoint) {p : Progress}
    (hp : DocumentCache.Faithful info lookup p.cache) :
    ∃ p', (sourceEntry ⟨some info, names, context, lookup⟩ point).run.run p =
        (.ok (info.sourceLine lines point), p') ∧
      DocumentCache.Faithful info lookup p'.cache := by
  obtain ⟨p', hr, hk⟩ := run_document? names context hp
    (read_eq_ok hl point.document)
  rw [sourceEntry, run_bind_of_ok hr, info.pathAt?_eq]
  unfold DebugInfo.sourceLine
  by_cases hd : 0 ≤ point.document ∧ point.document < info.documents.length
  · simp only [if_pos hd, Option.map_some, sourceText_eq]
    generalize info.documentPath (info.documents.getD point.document.toNat []) = path
    by_cases hn : 1 ≤ point.start.line ∧ point.start.line ≤ (lines path).length
    · simp only [if_pos hn]
      exact ⟨_, rfl, hk⟩
    · simp only [if_neg hn]
      exact ⟨_, rfl, hk⟩
  · simp only [if_neg hd, Option.map_none]
    exact ⟨_, rfl, hk⟩

theorem run_sourceAt (hl : ∀ d ∈ info.documents, lookup (info.documentPath d) =
      .ok (lines (info.documentPath d))) (address : Int) {p : Progress}
    (hp : DocumentCache.Faithful info lookup p.cache) :
    ∃ p', (sourceAt ⟨some info, names, context, lookup⟩ (Landmarks.ofDebugInfo info).1
        address).run.run p =
        (.ok ((info.firstPoint? address).elim [] (info.sourceLine lines)), p') ∧
      DocumentCache.Faithful info lookup p'.cache := by
  unfold sourceAt
  rw [Landmarks.get?_points_ofDebugInfo]
  cases info.firstPoint? address with
  | none => exact ⟨p, rfl, hp⟩
  | some point => exact run_sourceEntry hl point hp

theorem surround_ofDebugInfo (i : Instruction) (comment : Text) :
    surround (Landmarks.ofDebugInfo info).1
      ((info.firstPoint? i.address).elim [] (info.sourceLine lines)) i comment =
      info.entriesAt lines i comment := by
  unfold surround DebugInfo.entriesAt
  rw [Landmarks.get?_starts_ofDebugInfo, Landmarks.get?_ends_ofDebugInfo, Option.map_map,
    Option.map_map]
  rfl

theorem build_of_debugInfo (hl : ∀ d ∈ info.documents, lookup (info.documentPath d) =
      .ok (lines (info.documentPath d))) (is : List Instruction) :
    (build ⟨some info, names, context, lookup⟩ is).1 =
      (reference (info.entriesAt lines) context is).mapError .comment := by
  have hf : (fun i => surround (Landmarks.ofDebugInfo info).1
      ((info.firstPoint? i.address).elim [] (info.sourceLine lines)) i) =
      info.entriesAt lines := by
    funext i comment
    exact surround_ofDebugInfo i comment
  rw [← hf]
  exact run_groups (fun address => (info.firstPoint? address).elim [] (info.sourceLine lines))
    (fun p => DocumentCache.Faithful info lookup p.cache)
    (fun address _ hp => run_sourceAt hl address hp) is DocumentCache.faithful_nil

theorem build_of_names (is : List Instruction) :
    (build ⟨none, names, context, lookup⟩ is).1 =
      (reference (namedEntriesAt names) context is).mapError .comment := by
  have hf : (fun i => surround (Landmarks.ofMethodNames names) [] i) = namedEntriesAt names := by
    funext i comment
    simp only [surround, namedEntriesAt, Landmarks.ofMethodNames, Table.get?, List.lookup_nil,
      Option.map_none, Option.toList_none, List.append_nil]
  have hs : ∀ (address : Int) (p : Progress), True → ∃ p',
      (sourceAt ⟨none, names, context, lookup⟩ (Landmarks.ofMethodNames names) address).run.run p =
        (.ok [], p') ∧ True := fun _ p _ => ⟨p, rfl, trivial⟩
  rw [← hf]
  exact run_groups (fun _ => []) (fun _ => True) hs is trivial

end WithDebugInfo

/-- All instructions of a script have comments just when none calls by a token that cannot be
written. -/
theorem exists_comments_iff {s : Bytes} {is : List Instruction}
    (h : Script.disassemble s = .ok is) (hs : s.length < Comment.addressLimit)
    {context : Comment.Context} :
    (∃ comments, is.mapM (Comment.ofInstruction context) = .ok comments) ↔
      ∀ i ∈ is, ¬Comment.CallsUnwritable context i := by
  obtain ⟨hr, -, -⟩ := Script.row_of_disassemble h
  rw [exists_mapM_eq_ok_iff]
  refine forall₂_congr fun i hi => ?_
  exact Comment.exists_ofInstruction_iff (hr.wellFormed i hi)
    (Script.address_lt_of_disassemble h hs i hi)

/-- The plan of a script is the row of the entries of its instructions. With debug information
they are those that the first records for each address lead to, whatever names are known
besides; without it there are only starts of methods, at the addresses that have a name. Up to
the length at which addresses outgrow the numbers that can be written, an instruction is without
a comment only if a number in the token that it calls by is too long. -/
theorem build_eq_reference {s : Bytes} {is : List Instruction}
    (h : Script.disassemble s = .ok is) (names : Table Int Text) (context : Comment.Context)
    (lookup : Text → Except ε (List Text)) :
    (s.length < 10 ^ (Text.digitLimit - 1) →
      ((∃ comments, is.mapM (Comment.ofInstruction context) = .ok comments) ↔
        ∀ i ∈ is, ¬Comment.CallsUnwritable context i)) ∧
    (∀ (info : DebugInfo) (lines : Text → List Text),
      (∀ d ∈ info.documents, lookup (info.documentPath d) = .ok (lines (info.documentPath d))) →
      (build ⟨some info, names, context, lookup⟩ is).1 =
        (reference (info.entriesAt lines) context is).mapError .comment) ∧
    (build ⟨none, names, context, lookup⟩ is).1 =
      (reference (namedEntriesAt names) context is).mapError .comment := by
  refine ⟨fun hs => exists_comments_iff h hs, ?_, build_of_names is⟩
  intro info lines hl
  exact build_of_debugInfo hl is

/-- The first record counts at every address: of two methods that start at zero, of two that end
at one, and of two points at zero, although the first of these names no document. -/
theorem build_eq_reference_duplicates :
    let info : DebugInfo := ⟨[Text.ofString "a.cs"], none,
      [⟨Text.ofString "N", Text.ofString "first", 0, 1,
          [⟨0, 7, ⟨1, 1⟩, ⟨1, 3⟩⟩, ⟨0, 0, ⟨1, 1⟩, ⟨1, 3⟩⟩, ⟨1, 0, ⟨2, 2⟩, ⟨2, 4⟩⟩]⟩,
        ⟨Text.ofString "N", Text.ofString "second", 0, 1, []⟩]⟩
    let lookup : Text → Except Empty (List Text) :=
      fun _ => .ok [Text.ofString "one", Text.ofString "two"]
    (build ⟨some info, [(0, Text.ofString "other")], ⟨[], []⟩, lookup⟩
        [⟨0, .bare 0x11 "PUSH1", []⟩, ⟨1, .ret, []⟩]).1.toOption =
      some [.methodStart 0 (Text.ofString "N.first"), .instruction 0 "PUSH1" "" [],
        .source 1 (Text.ofString "a.cs") 2 (Text.ofString "wo"), .instruction 1 "RET" "" [],
        .methodEnd 1 (Text.ofString "N.first")] := by
  intro info lookup
  have h : Script.disassemble [0x11, 0x40] =
      .ok [⟨0, .bare 0x11 "PUSH1", []⟩, ⟨1, .ret, []⟩] := by cbv
  have hb := (build_eq_reference h [(0, Text.ofString "other")] ⟨[], []⟩ lookup).2.1 info
    (fun _ => [Text.ofString "one", Text.ofString "two"]) (fun _ _ => rfl)
  rw [hb]
  decide +kernel

end Plan

end NeoListing

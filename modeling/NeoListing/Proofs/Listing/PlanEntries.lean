import NeoListing.Proofs.Listing.PlanReference

/-! # The entries of a plan

A plan is a row of groups, one for each instruction. All entries of a group are at the address of
its instruction. So whatever else is known about addresses, a plan holds one entry for each
instruction, in their order.
-/

namespace NeoListing

def Entry.isInstruction : Entry → Bool
  | .instruction _ _ _ _ => true
  | _ => false

def Landmarks.Placed (marks : Landmarks) : Prop :=
  ∀ address point, marks.points.get? address = some point → point.address = address

namespace Plan
open Outcome

variable {ε : Type} {sources : Sources ε} {marks : Landmarks} {p : Progress} {es : List Entry}

def IsSourceAt (address : Int) (source : List Entry) : Prop :=
  source = [] ∨ ∃ fileName line text, source = [.source address fileName line text]

def IsGroupOf (context : Comment.Context) (marks : Landmarks) (i : Instruction)
    (group : List Entry) : Prop :=
  ∃ source comment, IsSourceAt i.address source ∧ Comment.ofInstruction context i = .ok comment ∧
    group = surround marks source i comment

theorem placed_landmarks (sources : Sources ε) : (landmarks sources).1.Placed := by
  intro address point h
  unfold landmarks at h
  split at h
  next info _ =>
    rw [Landmarks.get?_points_ofDebugInfo] at h
    have hb : (point.address == address) = true :=
      List.find?_some (p := fun q : SequencePoint => q.address == address) h
    exact beq_iff_eq.mp hb
  next => cases h

theorem sourceEntry_eq_ok {point : SequencePoint}
    (h : ((sourceEntry sources point).run.run p).1 = .ok es) : IsSourceAt point.address es := by
  obtain ⟨document, -, h⟩ := run_bind_eq_ok_iff.mp h
  cases document with
  | none =>
    obtain rfl : [] = es := Except.ok.inj h
    exact .inl rfl
  | some document =>
    simp only at h
    split at h
    · obtain rfl : [] = es := Except.ok.inj h
      exact .inl rfl
    · obtain rfl := Except.ok.inj h
      exact .inr ⟨_, _, _, rfl⟩

theorem sourceAt_eq_ok (hm : marks.Placed) {address : Int}
    (h : ((sourceAt sources marks address).run.run p).1 = .ok es) :
    IsSourceAt address es := by
  unfold sourceAt at h
  split at h
  next point hp =>
    rw [← hm address point hp]
    exact sourceEntry_eq_ok h
  next =>
    obtain rfl : [] = es := Except.ok.inj h
    exact .inl rfl

theorem group_eq_ok (hm : marks.Placed) {i : Instruction}
    (h : ((group sources marks i).run.run p).1 = .ok es) :
    IsGroupOf sources.context marks i es := by
  rw [group_eq] at h
  obtain ⟨source, hs, h⟩ := run_bind_eq_ok_iff.mp h
  unfold finish at h
  split at h
  next comment hc =>
    obtain rfl := Except.ok.inj h
    exact ⟨source, comment, sourceAt_eq_ok hm hs, hc, rfl⟩
  next => cases h

theorem groups_eq_ok (hm : marks.Placed) {is : List Instruction}
    (h : ((groups sources marks is).run.run p).1 = .ok es) :
    ∃ gs : List (List Entry), es = gs.flatten ∧
      List.Forall₂ (IsGroupOf sources.context marks) is gs := by
  induction is generalizing p es with
  | nil =>
    obtain rfl : [] = es := Except.ok.inj h
    exact ⟨[], rfl, List.Forall₂.nil⟩
  | cons i rest ih =>
    obtain ⟨entries, hg, h⟩ := run_bind_eq_ok_iff.mp h
    obtain ⟨more, hr, h⟩ := run_bind_eq_ok_iff.mp h
    obtain rfl : entries ++ more = es := Except.ok.inj h
    obtain ⟨gs, rfl, hgs⟩ := ih hr
    exact ⟨entries :: gs, rfl, List.Forall₂.cons (group_eq_ok hm hg) hgs⟩

theorem groups_of_build {is : List Instruction} (h : (build sources is).1 = .ok es) :
    ∃ gs : List (List Entry), es = gs.flatten ∧
      List.Forall₂ (IsGroupOf sources.context (landmarks sources).1) is gs :=
  groups_eq_ok (placed_landmarks sources) h

section Group

variable {context : Comment.Context} {i : Instruction} {g : List Entry}

theorem IsGroupOf.address_eq (h : IsGroupOf context marks i g) :
    ∀ e ∈ g, e.address = i.address := by
  obtain ⟨source, comment, hs, -, rfl⟩ := h
  intro e he
  simp only [surround, List.mem_append, Option.mem_toList, Option.map_eq_some_iff,
    List.mem_singleton] at he
  rcases he with ((⟨name, -, rfl⟩ | he) | rfl) | ⟨name, -, rfl⟩
  · rfl
  · rcases hs with rfl | ⟨fileName, line, text, rfl⟩
    · cases he
    · rw [List.mem_singleton.mp he]
      rfl
  · rfl
  · rfl

/-- A group holds the entry of its instruction and of no other. -/
theorem IsGroupOf.filter_isInstruction (h : IsGroupOf context marks i g) :
    ∃ e, IsEntryOf context i e ∧ g.filter Entry.isInstruction = [e] := by
  obtain ⟨source, comment, hs, hc, rfl⟩ := h
  have hstart : ((marks.starts.get? i.address).map (Entry.methodStart i.address)).toList.filter
      Entry.isInstruction = [] := by
    cases marks.starts.get? (i.address : Int) <;> rfl
  have hsource : source.filter Entry.isInstruction = [] := by
    rcases hs with rfl | ⟨fileName, line, text, rfl⟩ <;> rfl
  have hend : ((marks.ends.get? i.address).map (Entry.methodEnd i.address)).toList.filter
      Entry.isInstruction = [] := by
    cases marks.ends.get? (i.address : Int) <;> rfl
  refine ⟨_, ⟨comment, hc, rfl⟩, ?_⟩
  simp only [surround, List.filter_append, hstart, hsource, hend, List.nil_append, List.append_nil]
  rfl

theorem IsGroupOf.ne_nil (h : IsGroupOf context marks i g) : g ≠ [] := by
  rintro rfl
  obtain ⟨e, -, hf⟩ := h.filter_isInstruction
  cases hf

end Group

/-- The instructions of a plan are those that it was made from. -/
theorem instructions_of_build {is : List Instruction} (h : (build sources is).1 = .ok es) :
    List.Forall₂ (IsEntryOf sources.context) is (es.filter Entry.isInstruction) := by
  obtain ⟨gs, rfl, hgs⟩ := groups_of_build h
  clear h
  induction hgs with
  | nil => exact List.Forall₂.nil
  | cons hg _ ih =>
    obtain ⟨e, he, hf⟩ := hg.filter_isInstruction
    rw [List.flatten_cons, List.filter_append, hf]
    exact List.Forall₂.cons he ih

end Plan

end NeoListing

import Mathlib
import NeoListing.Listing.Plan
import NeoListing.Proofs.Outcome

/-! # Making a plan

How a plan is put together step by step, and the plan of instructions about which nothing else
is known: one entry for each.
-/

namespace NeoListing.Plan
open Outcome

variable {ε : Type}

def IsEntryOf (context : Comment.Context) (i : Instruction) (e : Entry) : Prop :=
  ∃ comment, Comment.ofInstruction context i = .ok comment ∧
    e = .instruction i.address i.opcode.name (Bytes.dashed i.operand) comment

theorem group_empty_ok (sources : Sources ε) {i : Instruction} {comment : Text}
    (h : Comment.ofInstruction sources.context i = .ok comment) (p : Progress) :
    (group sources .empty i).run.run p =
      (.ok [.instruction i.address i.opcode.name (Bytes.dashed i.operand) comment], p) := by
  simp only [group, Landmarks.empty, instructionEntry, h, Table.get?, List.lookup_nil]
  rfl

theorem group_empty_error (sources : Sources ε) {i : Instruction} {e : Comment.Error}
    (h : Comment.ofInstruction sources.context i = .error e) (p : Progress) :
    (group sources .empty i).run.run p = (.error (.comment e), p) := by
  simp only [group, Landmarks.empty, instructionEntry, h, Table.get?, List.lookup_nil]
  rfl

theorem groups_empty_of_forall₂ {sources : Sources ε} {is : List Instruction} {es : List Entry}
    (h : List.Forall₂ (IsEntryOf sources.context) is es) (p : Progress) :
    (groups sources .empty is).run.run p = (.ok es, p) := by
  induction h with
  | nil => rfl
  | cons hi _ ih =>
    obtain ⟨comment, hc, rfl⟩ := hi
    rw [groups, run_bind_of_ok (group_empty_ok sources hc p), run_bind_of_ok ih]
    rfl

theorem forall₂_of_groups_empty {sources : Sources ε} {is : List Instruction} {es : List Entry}
    {p : Progress} (h : ((groups sources .empty is).run.run p).1 = .ok es) :
    List.Forall₂ (IsEntryOf sources.context) is es := by
  induction is generalizing es with
  | nil =>
    obtain rfl := Except.ok.inj h
    exact List.Forall₂.nil
  | cons i rest ih =>
    rw [groups] at h
    cases hc : Comment.ofInstruction sources.context i with
    | error e =>
      rw [run_bind_of_error (group_empty_error sources hc p)] at h
      cases h
    | ok comment =>
      rw [run_bind_of_ok (group_empty_ok sources hc p)] at h
      rcases hm : (groups sources .empty rest).run.run p with ⟨e | more, p'⟩
      · rw [run_bind_of_error hm] at h
        cases h
      · rw [run_bind_of_ok hm] at h
        obtain rfl := Except.ok.inj h
        exact List.Forall₂.cons ⟨comment, hc, rfl⟩ (ih (congrArg Prod.fst hm))

theorem landmarks_of_nothing {sources : Sources ε} (hi : sources.info = none)
    (hn : sources.methodNames = []) : landmarks sources = (.empty, []) := by
  rw [landmarks, hi, hn]
  rfl

theorem build_of_nothing_eq_ok_iff {sources : Sources ε} (hi : sources.info = none)
    (hn : sources.methodNames = []) {is : List Instruction} {es : List Entry} :
    (build sources is).1 = .ok es ↔ List.Forall₂ (IsEntryOf sources.context) is es := by
  rw [build, landmarks_of_nothing hi hn]
  constructor
  · exact forall₂_of_groups_empty
  · intro h
    exact congrArg Prod.fst (groups_empty_of_forall₂ h ⟨[], [], []⟩)

end NeoListing.Plan

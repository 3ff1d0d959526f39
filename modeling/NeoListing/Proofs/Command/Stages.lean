import Mathlib
import NeoListing.Command.Run
import NeoListing.Proofs.Outcome

/-! # Stages of a run

Only the stage that loads the contract can ask a node. The stages after it leave the session
alone, and how they end does not depend on what was noted before them. None of them writes.
-/

namespace NeoListing

/-- There is no debug information beside a contract file, or none that can be used. -/
def DebugInfo.Unavailable (machine : Machine) (files : FileTree) (p : Path) : Prop :=
  DebugInfo.load machine files p = .ok none ∨
    ∃ e, DebugInfo.load machine files p = .error e ∧ e.isUnusable = true

namespace Command
open Outcome

variable {α β : Type}

theorem run_attempt {ε : Type} (wrap : ε → Failure) (x : Except ε α) (t : Trail) :
    (attempt wrap x).run.run t = (x.mapError wrap, t) := by
  cases x <;> rfl

theorem run_note (notices : List Notice) (t : Trail) :
    (note notices).run.run t = (.ok (), t.noted notices) := rfl

theorem run_loadContract_eq (files : FileTree) (source : Text) (url : Option Text) (t : Trail) :
    (loadContract files source url).run.run t =
      ((Contract.load files t.session source url).result.mapError .input,
        ⟨(Contract.load files t.session source url).session,
          t.notices ++ (Contract.load files t.session source url).notices, t.output⟩) :=
  run_attempt .input (Contract.load files t.session source url).result _

/-! ## What is known about a contract -/

section Annotations

variable {world : World} {contract : Contract} {p : Path}

theorem annotations_of_no_path (h : contract.path = none) :
    annotations world contract = pure (none, contract.methodNames) := by
  simp only [annotations, h]

theorem annotations_of_info {info : DebugInfo} (hp : contract.path = some p)
    (h : DebugInfo.load world.machine world.files p = .ok (some info)) :
    annotations world contract = pure (some info, contract.methodNames) := by
  simp only [annotations, hp, h]

theorem annotations_of_unavailable (hp : contract.path = some p)
    (h : DebugInfo.Unavailable world.machine world.files p) :
    ∃ notices, annotations world contract = (do
      note notices
      return (none, ← loadManifest world p)) := by
  rcases h with h | ⟨e, h, he⟩
  · simp only [annotations, hp, h]
    exact ⟨_, rfl⟩
  · simp only [annotations, hp, h, he, if_true]
    exact ⟨_, rfl⟩

theorem annotations_of_fault {e : DebugInfo.LoadError} (hp : contract.path = some p)
    (h : DebugInfo.load world.machine world.files p = .error e) (he : e.isUnusable = false) :
    annotations world contract = throw (.debugInfo e) := by
  simp only [annotations, hp, h, he, Bool.false_eq_true, if_false]

theorem load_cases (world : World) (p : Path) :
    (∃ info, DebugInfo.load world.machine world.files p = .ok (some info)) ∨
      DebugInfo.Unavailable world.machine world.files p ∨
      ∃ e, DebugInfo.load world.machine world.files p = .error e ∧ e.isUnusable = false := by
  unfold DebugInfo.Unavailable
  rcases DebugInfo.load world.machine world.files p with e | (_ | info)
  · cases he : e.isUnusable with
    | true => exact .inr (.inl (.inr ⟨e, rfl, he⟩))
    | false => exact .inr (.inr ⟨e, rfl, he⟩)
  · exact .inr (.inl (.inl rfl))
  · exact .inl ⟨info, rfl⟩

end Annotations

/-! ## Stages that only add notices -/

/-- Ends in one way after every trail and adds the same notices to it. -/
def Quiet (x : Run α) : Prop :=
  ∃ r notices, ∀ t, x.run.run t = (r, t.noted notices)

theorem Trail.noted_nil (t : Trail) : t.noted [] = t := by
  rw [noted, List.append_nil]

theorem Trail.noted_noted (t : Trail) (notices more : List Notice) :
    (t.noted notices).noted more = t.noted (notices ++ more) := by
  simp only [noted, List.append_assoc]

theorem quiet_pure (a : α) : Quiet (pure a : Run α) := by
  refine ⟨.ok a, [], fun t => ?_⟩
  rw [t.noted_nil]
  rfl

theorem quiet_attempt {ε : Type} (wrap : ε → Failure) (x : Except ε α) :
    Quiet (attempt wrap x) := by
  refine ⟨x.mapError wrap, [], fun t => ?_⟩
  rw [t.noted_nil]
  exact run_attempt wrap x t

theorem quiet_note (notices : List Notice) : Quiet (note notices) :=
  ⟨.ok (), notices, run_note notices⟩

theorem Quiet.bind {x : Run α} {f : α → Run β} (hx : Quiet x) (hf : ∀ a, Quiet (f a)) :
    Quiet (x >>= f) := by
  obtain ⟨r, notices, hx⟩ := hx
  cases r with
  | error e => exact ⟨.error e, notices, fun t => run_bind_of_error (hx t) f⟩
  | ok a =>
    obtain ⟨r', more, ha⟩ := hf a
    refine ⟨r', notices ++ more, fun t => ?_⟩
    rw [run_bind_of_ok (hx t), ha, Trail.noted_noted]

variable (world : World)

theorem quiet_loadManifest (p : Path) : Quiet (loadManifest world p) :=
  (quiet_attempt _ _).bind fun _ => (quiet_note _).bind fun _ => quiet_pure _

theorem quiet_annotations (contract : Contract) :
    Quiet (annotations world contract) := by
  cases hp : contract.path with
  | none =>
    rw [annotations_of_no_path hp]
    exact quiet_pure _
  | some p =>
    rcases load_cases world p with ⟨info, h⟩ | h | ⟨e, h, he⟩
    · rw [annotations_of_info hp h]
      exact quiet_pure _
    · obtain ⟨notices, ha⟩ := annotations_of_unavailable hp h
      rw [ha]
      exact (quiet_note notices).bind fun _ =>
        (quiet_loadManifest world p).bind fun _ => quiet_pure _
    · rw [annotations_of_fault hp h he]
      exact quiet_attempt Failure.debugInfo (.error e)

theorem quiet_plan (contract : Contract) (info : Option DebugInfo) (names : Table Int Text)
    (is : List Instruction) : Quiet (plan world contract info names is) :=
  (quiet_note _).bind fun _ => quiet_attempt _ _

theorem quiet_listing (colours : Bool) (contract : Contract) :
    Quiet (listing world colours contract) := by
  refine (quiet_annotations world contract).bind fun known => ?_
  refine (quiet_attempt _ _).bind fun is => (quiet_note _).bind fun _ => ?_
  exact (quiet_plan world contract known.1 known.2 is).bind fun _ => quiet_attempt _ _

end Command

end NeoListing

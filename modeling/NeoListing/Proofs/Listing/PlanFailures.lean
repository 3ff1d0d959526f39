import NeoListing.Proofs.Listing.PlanEntries

/-! # How a plan can fail

Comments of well-formed instructions never lack a byte of their operand. So the plan of a script
fails only when a document cannot be looked up, at once and with what the lookup gave; besides that
only a number that is too long to be written stops it, in a token that is called by or in an
address.
-/

namespace NeoListing

namespace Comment

def OnlyDigits {α : Type} (x : Except Error α) : Prop := ∀ e, x = .error e → e = .tooManyDigits

theorem OnlyDigits.bind {α β : Type} {x : Except Error α} {f : α → Except Error β}
    (hx : OnlyDigits x) (hf : ∀ a, OnlyDigits (f a)) : OnlyDigits (x >>= f) := by
  intro e h
  rcases Outcome.bind_eq_error_iff.mp h with h | ⟨a, -, h⟩
  · exact hx e h
  · exact hf a e h

theorem OnlyDigits.map {α β : Type} {x : Except Error α} (hx : OnlyDigits x) (f : α → β) :
    OnlyDigits (x.map f) := by
  intro e h
  cases x with
  | ok a => cases h
  | error e' =>
    cases h
    exact hx e rfl

end Comment

namespace Plan
open Outcome

variable {ε α β : Type} {sources : Sources ε} {is : List Instruction}

def Found (lookup : Text → Except ε (List Text)) (paths : List Text) : Prop :=
  ∀ path ∈ paths, ∃ lines, lookup path = .ok lines

/-- The last lookup failed with `e`, all others found their document. -/
def LookupFailed (lookup : Text → Except ε (List Text)) (paths : List Text) (e : ε) : Prop :=
  ∃ before path, paths = before ++ [path] ∧ Found lookup before ∧ lookup path = .error e

/-- A lookup that fails stops the plan, and so does an instruction without a comment. Nothing
else does. -/
def Explained (sources : Sources ε) (is : List Instruction) :
    Except (Error ε) α × Progress → Prop
  | (.ok _, p) => Found sources.lookup p.lookedUp
  | (.error (.document e), p) => LookupFailed sources.lookup p.lookedUp e
  | (.error (.comment e), _) => ∃ i ∈ is, Comment.ofInstruction sources.context i = .error e

def Accountable (sources : Sources ε) (is : List Instruction) (m : Maker ε α) : Prop :=
  ∀ p, Found sources.lookup p.lookedUp → Explained sources is (m.run.run p)

theorem Accountable.bind {m : Maker ε α} {f : α → Maker ε β} (hm : Accountable sources is m)
    (hf : ∀ a, Accountable sources is (f a)) : Accountable sources is (m >>= f) := by
  intro p hp
  have h := hm p hp
  rcases hr : m.run.run p with ⟨e | a, p'⟩
  · rw [run_bind_of_error hr]
    rw [hr] at h
    cases e <;> exact h
  · rw [run_bind_of_ok hr]
    rw [hr] at h
    exact hf a p' h

end Plan

end NeoListing

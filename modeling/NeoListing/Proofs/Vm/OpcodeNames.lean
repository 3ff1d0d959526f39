import Mathlib
import NeoListing.Proofs.Text.Characters
import NeoListing.Vm.Opcode

/-! # Names of opcodes

The names in the opcode table are distinct and hold no blanks, so a name that is followed by
a blank or by nothing can be read back.
-/

namespace NeoListing.Opcode

theorem table_names_isBlankless : table.all (fun op => isBlankless op.name) = true := by
  cbv

theorem not_mem_name {op : Opcode} (h : op ∈ table) {c : Char} (hc : c.toNat ≤ 32) :
    c ∉ op.name.toList :=
  not_mem_of_isBlankless (List.all_eq_true.mp table_names_isBlankless op h) hc

/-- A number of a text that differs for any two names of the table. -/
def nameKey (s : String) : Nat :=
  s.toByteArray.data.toList.foldl (fun n b => 256 * n + b.toNat) 0 % 3406

def distinctFrom (seen : Nat) : List Nat → Bool
  | [] => true
  | k :: ks => !seen.testBit k && distinctFrom (seen ||| 2 ^ k) ks

theorem nodup_of_distinctFrom {seen : Nat} {ks : List Nat} (h : distinctFrom seen ks = true) :
    ks.Nodup ∧ ∀ k ∈ ks, seen.testBit k = false := by
  induction ks generalizing seen with
  | nil => simp
  | cons k ks ih =>
    simp only [distinctFrom, Bool.and_eq_true, Bool.not_eq_true'] at h
    obtain ⟨hk, hks⟩ := h
    obtain ⟨hn, ha⟩ := ih hks
    have hsplit : ∀ j ∈ ks, seen.testBit j = false ∧ k ≠ j := by
      intro j hj
      have hb := ha j hj
      rw [Nat.testBit_or, Nat.testBit_two_pow, Bool.or_eq_false_iff, decide_eq_false_iff_not] at hb
      exact hb
    refine ⟨List.nodup_cons.mpr ⟨?_, hn⟩, ?_⟩
    · intro hm
      exact (hsplit k hm).2 rfl
    · intro j hj
      rcases List.mem_cons.mp hj with rfl | hj
      · exact hk
      · exact (hsplit j hj).1

theorem table_names_distinct :
    distinctFrom 0 (table.map (fun op => nameKey op.name)) = true := by
  decide +kernel

theorem table_names_nodup : (table.map name).Nodup := by
  have h := (nodup_of_distinctFrom table_names_distinct).1
  have hm : table.map (fun op => nameKey op.name) = (table.map name).map nameKey := by
    rw [List.map_map]
    rfl
  rw [hm] at h
  exact h.of_map

theorem eq_of_name_eq {op₁ op₂ : Opcode} (h₁ : op₁ ∈ table) (h₂ : op₂ ∈ table)
    (h : op₁.name = op₂.name) : op₁ = op₂ :=
  List.inj_on_of_nodup_map table_names_nodup h₁ h₂ h

end NeoListing.Opcode

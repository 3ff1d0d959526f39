import NeoListing.Proofs.Listing.CommentText
import NeoListing.Proofs.Listing.RenderedLines
import NeoListing.Proofs.Vm.OpcodeNames

/-! # Reading an instruction line

A plain line of an instruction holds its address, its name, its operand and its comment between
blanks. Names and operands hold no blank and an operand never starts like a comment, so the line
determines the opcode and the operand whatever the comment says.
-/

namespace NeoListing

/-- Two texts that begin with a word, up to a separator or the end, begin with the same word. -/
theorem word_append_inj {α : Type} {x : α} {as bs t u : List α} (ha : x ∉ as) (hb : x ∉ bs)
    (ht : ∀ y ∈ t.head?, y = x) (hu : ∀ y ∈ u.head?, y = x) (h : as ++ t = bs ++ u) :
    as = bs ∧ t = u := by
  induction as generalizing bs with
  | nil =>
    cases bs with
    | nil => exact ⟨rfl, h⟩
    | cons b bs =>
      obtain rfl : t = b :: bs ++ u := h
      obtain rfl : b = x := ht b rfl
      exact absurd List.mem_cons_self hb
  | cons a as ih =>
    cases bs with
    | nil =>
      obtain rfl : a :: as ++ t = u := h
      obtain rfl : a = x := hu a rfl
      exact absurd List.mem_cons_self ha
    | cons b bs =>
      obtain ⟨rfl, hr⟩ := List.cons.inj h
      obtain ⟨rfl, rfl⟩ := ih (fun hm => ha (List.mem_cons_of_mem a hm))
        (fun hm => hb (List.mem_cons_of_mem a hm)) hr
      exact ⟨rfl, rfl⟩

theorem Bytes.dashed_eq_cons {bs : Bytes} (h : bs ≠ []) :
    ∃ c cs, (dashed bs).toList = c :: cs ∧ (c.isAlphanum = true ∨ c = '-') := by
  have hd : dashed bs ≠ "" := fun hd => h (dashed_eq_empty_iff.mp hd)
  obtain ⟨c, cs, hc⟩ := List.exists_cons_of_ne_nil (fun hn => hd (String.toList_eq_nil_iff.mp hn))
  exact ⟨c, cs, hc, isAlphanum_or_dash_of_mem_dashed (hc ▸ List.mem_cons_self)⟩

namespace Render

theorem isDigit_of_mem_padded {width n : Nat} {c : Char}
    (h : c ∈ (padded width (toString (n : Int))).toList) : c.isDigit = true := by
  rcases mem_padded h with rfl | h
  · decide
  · exact isDigit_of_mem_toString_nat h

theorem commentText_cases (comment : Text) :
    commentText false comment = [] ∨
      commentText false comment = .scalar ' ' :: .scalar '#' :: .scalar ' ' :: comment := by
  unfold commentText
  split
  · exact .inl rfl
  · exact .inr rfl

def lineRest (operand : Bytes) (comment : Text) : Text :=
  (if operand = [] then [] else .scalar ' ' :: Text.ofString (Bytes.dashed operand))
    ++ commentText false comment

def instructionLine (width : Nat) (i : Instruction) (comment : Text) : Text :=
  Text.ofString (padded width (toString (i.address : Int))) ++
    .scalar ' ' :: (Text.ofString i.opcode.name ++ lineRest i.operand comment)

theorem operandText_dashed (name : String) (operand : Bytes) (comment : Text) :
    Text.ofString (operandText name (Bytes.dashed operand)) ++ commentText false comment =
      .scalar ' ' :: (Text.ofString name ++ lineRest operand comment) := by
  unfold operandText lineRest
  by_cases h : operand = []
  · rw [if_pos (Bytes.dashed_eq_empty_iff.mpr h), if_pos h, Text.ofString_append]
    rfl
  · rw [if_neg (fun hd => h (Bytes.dashed_eq_empty_iff.mp hd)), if_neg h]
    simp only [Text.ofString_append, List.append_assoc]
    rfl

theorem entry_instruction_eq_ok_iff {machine : Machine} {width : Int} {i : Instruction}
    {comment line : Text} :
    entry machine width false
        (.instruction i.address i.opcode.name (Bytes.dashed i.operand) comment) = .ok line ↔
      ColumnFits machine width ∧ Text.Writable i.address ∧
        line = instructionLine width.toNat i comment := by
  simp only [entry, Outcome.bind_eq_ok_iff, addressText_eq_ok_iff]
  have hline : paint false .yellow (padded width.toNat (toString (i.address : Int))) ++
      paint false .blue (operandText i.opcode.name (Bytes.dashed i.operand)) ++
        commentText false comment = instructionLine width.toNat i comment := by
    simp only [paint, Bool.false_eq_true, if_false, List.append_assoc]
    rw [operandText_dashed]
    rfl
  constructor
  · rintro ⟨address, ⟨hw, ha, rfl⟩, hl⟩
    obtain rfl := Except.ok.inj hl
    exact ⟨hw, ha, hline⟩
  · rintro ⟨hw, ha, hl⟩
    rw [hl]
    exact ⟨_, ⟨hw, ha, rfl⟩, congrArg Except.ok hline⟩

theorem blank_not_mem_padded (width n : Nat) :
    CodePoint.scalar ' ' ∉ Text.ofString (padded width (toString (n : Int))) := by
  rw [Text.scalar_mem_ofString]
  intro h
  exact absurd (isDigit_of_mem_padded h) (by decide)

theorem blank_not_mem_dashed (operand : Bytes) :
    CodePoint.scalar ' ' ∉ Text.ofString (Bytes.dashed operand) := by
  rw [Text.scalar_mem_ofString]
  intro h
  exact absurd (Bytes.isAlphanum_or_dash_of_mem_dashed h) (by decide)

theorem blank_not_mem_name {op : Opcode} (h : op ∈ Opcode.table) :
    CodePoint.scalar ' ' ∉ Text.ofString op.name := by
  rw [Text.scalar_mem_ofString]
  exact Opcode.not_mem_name h (by decide)

theorem head_commentText (comment : Text) :
    ∀ p ∈ (commentText false comment).head?, p = .scalar ' ' := by
  intro p hp
  rcases commentText_cases comment with h | h
  · simp [h] at hp
  · simpa [h, eq_comm] using hp

theorem head_lineRest (operand : Bytes) (comment : Text) :
    ∀ p ∈ (lineRest operand comment).head?, p = .scalar ' ' := by
  unfold lineRest
  split
  · exact head_commentText comment
  · intro p hp
    simpa [eq_comm] using hp

/-- An operand does not read as the start of a comment. -/
theorem lineRest_nil_ne {operand : Bytes} (h : operand ≠ []) (comment comment' : Text) :
    lineRest [] comment ≠ lineRest operand comment' := by
  intro he
  obtain ⟨c, cs, hc, hm⟩ := Bytes.dashed_eq_cons h
  simp only [lineRest, if_true, List.nil_append, h, if_false, Text.ofString, hc, List.map_cons,
    List.cons_append] at he
  rcases commentText_cases comment with hn | hn
  · rw [hn] at he
    cases he
  · rw [hn] at he
    simp only [List.cons.injEq, true_and] at he
    obtain rfl : '#' = c := CodePoint.scalar.inj he.1
    exact absurd hm (by decide)

theorem lineRest_inj {operand₁ operand₂ : Bytes} {comment₁ comment₂ : Text}
    (h : lineRest operand₁ comment₁ = lineRest operand₂ comment₂) : operand₁ = operand₂ := by
  by_cases h₁ : operand₁ = []
  · subst h₁
    by_cases h₂ : operand₂ = []
    · exact h₂.symm
    · exact absurd h (lineRest_nil_ne h₂ _ _)
  · by_cases h₂ : operand₂ = []
    · subst h₂
      exact absurd h.symm (lineRest_nil_ne h₁ _ _)
    · simp only [lineRest, h₁, h₂, if_false, List.cons_append, List.cons.injEq, true_and] at h
      obtain ⟨hd, -⟩ := word_append_inj (blank_not_mem_dashed _) (blank_not_mem_dashed _)
        (head_commentText _) (head_commentText _) h
      exact Bytes.dashed_inj (Text.ofString_inj hd)

/-- A plain line determines the opcode and the operand of its instruction. -/
theorem instructionLine_inj {width₁ width₂ : Nat} {i₁ i₂ : Instruction} (h₁ : i₁.WellFormed)
    (h₂ : i₂.WellFormed) {comment₁ comment₂ : Text}
    (h : instructionLine width₁ i₁ comment₁ = instructionLine width₂ i₂ comment₂) :
    i₁.opcode = i₂.opcode ∧ i₁.operand = i₂.operand := by
  obtain ⟨-, hr⟩ := word_append_inj (blank_not_mem_padded _ _) (blank_not_mem_padded _ _)
    (by simp) (by simp) h
  obtain ⟨hn, ho⟩ := word_append_inj (blank_not_mem_name h₁.1) (blank_not_mem_name h₂.1)
    (head_lineRest _ _) (head_lineRest _ _) (List.cons.inj hr).2
  exact ⟨Opcode.eq_of_name_eq h₁.1 h₂.1 (Text.ofString_inj hn), lineRest_inj ho⟩

theorem oneLine_lineRest {comment : Text} (h : comment.OneLine) (operand : Bytes) :
    (lineRest operand comment).OneLine := by
  unfold lineRest
  rw [Text.oneLine_append]
  constructor
  · split
    · exact Text.oneLine_nil
    · rw [Text.oneLine_cons]
      refine ⟨by decide, by decide, Text.oneLine_of_isAlphanum ?_⟩
      exact fun c hc => Bytes.isAlphanum_or_dash_of_mem_dashed hc
  · rcases commentText_cases comment with hc | hc
    · rw [hc]
      exact Text.oneLine_nil
    · rw [hc, Text.oneLine_cons, Text.oneLine_cons, Text.oneLine_cons]
      exact ⟨by decide, by decide, by decide, by decide, by decide, by decide, h⟩

theorem oneLine_instructionLine {i : Instruction} (h : i.WellFormed) {comment : Text}
    (hc : comment.OneLine) (width : Nat) : (instructionLine width i comment).OneLine := by
  rw [instructionLine, Text.oneLine_append, Text.oneLine_cons, Text.oneLine_append]
  refine ⟨Text.oneLine_of_isAlphanum ?_, by decide, by decide, ?_, oneLine_lineRest hc _⟩
  · intro c hm
    exact .inl (by simp [Char.isAlphanum, isDigit_of_mem_padded hm])
  · rw [Text.oneLine_ofString]
    exact ⟨Opcode.not_mem_name h.1 (by decide), Opcode.not_mem_name h.1 (by decide)⟩

end Render

end NeoListing

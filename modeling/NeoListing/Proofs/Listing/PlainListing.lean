import NeoListing.Proofs.Listing.CommentDefined
import NeoListing.Proofs.Listing.InstructionLine
import NeoListing.Proofs.Listing.PlanSteps
import NeoListing.Proofs.Vm.ScriptNormalForm

/-! # The plain listing of a script

A script is listed without debug information, method names, tokens and colours. The listing
can be read back: its lines that are not empty are the lines of the instructions, each
determines an opcode and an operand, and these make up the script with its final return.
-/

namespace NeoListing

variable {ε : Type}

def Plan.bareSources (lookup : Text → Except ε (List Text)) : Plan.Sources ε :=
  ⟨none, [], ⟨[], ServiceTable.current⟩, lookup⟩

def plainListing (machine : Machine) (lookup : Text → Except ε (List Text)) (s : Bytes) :
    Option Text := do
  let is ← (Script.disassemble s).toOption
  let plan ← (Plan.build (Plan.bareSources lookup) is).1.toOption
  (Render.listing machine (addressWidth (is.map fun i => (i.address : Int))) false plan).toOption

section

variable {machine : Machine} {lookup : Text → Except ε (List Text)}

theorem Plan.oneLine_bareSources : (Plan.bareSources lookup).context.OneLine :=
  Comment.Context.oneLine_current

theorem Plan.build_bareSources_eq_ok_iff {is : List Instruction} {plan : List Entry} :
    (Plan.build (Plan.bareSources lookup) is).1 = .ok plan ↔
      List.Forall₂ (Plan.IsEntryOf (Plan.bareSources lookup).context) is plan :=
  Plan.build_of_nothing_eq_ok_iff rfl rfl

theorem plainListing_eq_some_iff {s : Bytes} {t : Text} :
    plainListing machine lookup s = some t ↔
      ∃ is, Script.disassemble s = .ok is ∧
        ∃ plan, List.Forall₂ (Plan.IsEntryOf (Plan.bareSources lookup).context) is plan ∧
          Render.listing machine (addressWidth (is.map fun i => (i.address : Int))) false plan =
            .ok t := by
  simp only [plainListing, Option.bind_eq_bind, Option.bind_eq_some_iff,
    Outcome.toOption_eq_some_iff, Plan.build_bareSources_eq_ok_iff]

end

namespace Render

def AreLinesOf (is : List Instruction) (rs : List Text) : Prop :=
  List.Forall₂ (fun i r => ∃ width comment, comment.OneLine ∧ r = instructionLine width i comment)
    is rs

theorem AreLinesOf.oneLine {is : List Instruction} {rs : List Text} (h : AreLinesOf is rs)
    (hw : ∀ i ∈ is, i.WellFormed) : ∀ r ∈ rs, r.OneLine := by
  induction h with
  | nil =>
    intro r hr
    cases hr
  | cons hr _ ih =>
    obtain ⟨width, comment, hc, he⟩ := hr
    rw [List.forall_mem_cons] at hw ⊢
    rw [he]
    exact ⟨oneLine_instructionLine hw.1 hc width, ih hw.2⟩

theorem AreLinesOf.same {is js : List Instruction} {rs : List Text} (hi : AreLinesOf is rs)
    (hj : AreLinesOf js rs) (hwi : ∀ i ∈ is, i.WellFormed) (hwj : ∀ j ∈ js, j.WellFormed) :
    List.Forall₂ (fun i j => i.opcode = j.opcode ∧ i.operand = j.operand) is js := by
  induction hi generalizing js with
  | nil =>
    cases hj
    exact List.Forall₂.nil
  | cons hr _ ih =>
    cases hj with
    | cons hr' hrs =>
      obtain ⟨width, comment, -, he⟩ := hr
      obtain ⟨width', comment', -, he'⟩ := hr'
      rw [List.forall_mem_cons] at hwi hwj
      exact List.Forall₂.cons (instructionLine_inj hwi.1 hwj.1 (he.symm.trans he'))
        (ih hrs hwi.2 hwj.2)

theorem areLinesOf_of_forall₂ {context : Comment.Context} (hc : context.OneLine) {machine : Machine}
    {width : Int} {is : List Instruction} {plan : List Entry} {rs : List Text}
    (hp : List.Forall₂ (Plan.IsEntryOf context) is plan)
    (hr : List.Forall₂ (fun e r => entry machine width false e = .ok r) plan rs) :
    AreLinesOf is rs := by
  induction hp generalizing rs with
  | nil =>
    cases hr
    exact List.Forall₂.nil
  | cons hi _ ih =>
    cases hr with
    | cons hl hrs =>
      obtain ⟨comment, hm, rfl⟩ := hi
      obtain ⟨-, -, he⟩ := entry_instruction_eq_ok_iff.mp hl
      exact List.Forall₂.cons ⟨_, comment, Comment.oneLine_ofInstruction hc hm, he⟩ (ih hrs)

end Render

theorem addressWidth_le {is : List Instruction} (h : ∀ i ∈ is, i.address < Comment.addressLimit) :
    addressWidth (is.map fun i => (i.address : Int)) ≤ Text.digitLimit := by
  unfold addressWidth
  rw [List.getLast?_map]
  cases hl : is.getLast? with
  | none => decide
  | some i =>
    have hi := h i (List.mem_of_getLast? hl)
    have hr : (toString (i.address : Int)) = i.address.repr := rfl
    simp only [Option.map_some, hr]
    have hlen := (Nat.length_repr_le_iff (n := i.address) (k := Text.digitLimit - 1)
      (by decide)).mpr hi
    omega

theorem Render.columnFits_addressWidth (machine : Machine) {is : List Instruction}
    (h : ∀ i ∈ is, i.address < Comment.addressLimit) :
    Render.ColumnFits machine (addressWidth (is.map fun i => (i.address : Int))) := by
  have hw := addressWidth_le h
  have hroom := machine.digitLimit_le_room
  have hmax : (Text.digitLimit : Int) ≤ Render.maxWidth := by decide
  exact ⟨by omega, by omega, by omega⟩

theorem Comment.writable_address {i : Instruction} (h : i.address < Comment.addressLimit) :
    Text.Writable i.address :=
  Comment.writable_of_lt (by omega)

theorem Plan.exists_entries {context : Comment.Context} {is : List Instruction}
    (h : ∀ i ∈ is, ∃ comment, Comment.ofInstruction context i = .ok comment) :
    ∃ plan, List.Forall₂ (Plan.IsEntryOf context) is plan := by
  induction is with
  | nil => exact ⟨[], List.Forall₂.nil⟩
  | cons i rest ih =>
    rw [List.forall_mem_cons] at h
    obtain ⟨⟨comment, hc⟩, hr⟩ := h
    obtain ⟨plan, hp⟩ := ih hr
    exact ⟨_ :: plan, List.Forall₂.cons ⟨comment, hc, rfl⟩ hp⟩

theorem Plan.writable_of_forall₂ {context : Comment.Context} {is : List Instruction}
    {plan : List Entry} (hp : List.Forall₂ (Plan.IsEntryOf context) is plan)
    (h : ∀ i ∈ is, Text.Writable i.address) : ∀ e ∈ plan, e.Writable := by
  induction hp with
  | nil => exact List.forall_mem_nil _
  | cons hi _ ih =>
    obtain ⟨comment, -, rfl⟩ := hi
    rw [List.forall_mem_cons] at h ⊢
    exact ⟨h.1, ih h.2⟩

/-- The instructions of a script have entries, and these can be written, if the tokens can. -/
theorem Plan.exists_writable_entries {context : Comment.Context} {s : Bytes}
    {is : List Instruction} (h : Script.disassemble s = .ok is)
    (hs : s.length < Comment.addressLimit) (ht : ∀ token ∈ context.tokens, token.Writable) :
    ∃ plan, List.Forall₂ (Plan.IsEntryOf context) is plan ∧ ∀ e ∈ plan, e.Writable := by
  obtain ⟨hr, -, -⟩ := Script.row_of_disassemble h
  have hlimit := Script.address_lt_of_disassemble h hs
  obtain ⟨plan, hp⟩ := Plan.exists_entries fun i hi =>
    (Comment.exists_ofInstruction_iff (hr.wellFormed i hi) (hlimit i hi)).mpr
      (Comment.not_callsUnwritable ht i)
  exact ⟨plan, hp, Plan.writable_of_forall₂ hp fun i hi => Comment.writable_address (hlimit i hi)⟩

section

variable {machine : Machine} {lookup : Text → Except ε (List Text)} {s : Bytes}
  {is : List Instruction} {t : Text}

theorem exists_plainListing (h : Script.disassemble s = .ok is)
    (hs : s.length < Comment.addressLimit) : ∃ t, plainListing machine lookup s = some t := by
  have hcolumn :=
    Render.columnFits_addressWidth machine (Script.address_lt_of_disassemble h hs)
  have htokens : ∀ token ∈ (Plan.bareSources lookup).context.tokens, token.Writable :=
    List.forall_mem_nil _
  obtain ⟨plan, hp, hw⟩ := Plan.exists_writable_entries h hs htokens
  obtain ⟨ls, hl⟩ := (Render.exists_linesFrom_iff false none).mpr
    (Render.renderable_of_writable hcolumn hw)
  refine ⟨(Text.ofString "\n").intercalate ls,
    plainListing_eq_some_iff.mpr ⟨is, h, plan, hp, ?_⟩⟩
  rw [Render.listing, Render.lines, hl]
  rfl

theorem lines_of_plainListing (h : plainListing machine lookup s = some t) :
    ∃ is ls, Script.disassemble s = .ok is ∧ t = (Text.ofString "\n").intercalate ls ∧
      Render.AreLinesOf is (ls.filter (fun l => !l.isEmpty)) := by
  obtain ⟨is, hd, plan, hp, ht⟩ := plainListing_eq_some_iff.mp h
  obtain ⟨ls, hl, rfl⟩ := Outcome.map_eq_ok_iff.mp ht
  exact ⟨is, ls, hd, rfl,
    Render.areLinesOf_of_forall₂ Plan.oneLine_bareSources hp (Render.linesFrom_filter hl)⟩

theorem Render.AreLinesOf.lines_oneLine {ls : List Text}
    (h : Render.AreLinesOf is (ls.filter (fun l => !l.isEmpty)))
    (hw : ∀ i ∈ is, i.WellFormed) : ∀ l ∈ ls, CodePoint.scalar '\n' ∉ l := by
  intro l hl
  by_cases he : l = []
  · simp [he]
  · exact (h.oneLine hw l (List.mem_filter.mpr ⟨hl, by simpa using he⟩)).1

theorem disassemble_eq_of_plainListing {s₁ s₂ : Bytes}
    (h₁ : plainListing machine lookup s₁ = some t) (h₂ : plainListing machine lookup s₂ = some t) :
    Script.disassemble s₁ = Script.disassemble s₂ := by
  obtain ⟨is₁, ls₁, hd₁, rfl, hl₁⟩ := lines_of_plainListing h₁
  obtain ⟨is₂, ls₂, hd₂, ht, hl₂⟩ := lines_of_plainListing h₂
  obtain ⟨hr₁, -, hn₁⟩ := Script.row_of_disassemble hd₁
  obtain ⟨hr₂, -, hn₂⟩ := Script.row_of_disassemble hd₂
  have hne : ∀ {is : List Instruction} {ls : List Text}, is ≠ [] →
      Render.AreLinesOf is (ls.filter (fun l => !l.isEmpty)) → ls ≠ [] := by
    rintro is ls hn hl rfl
    exact hn (List.forall₂_nil_right_iff.mp hl)
  obtain rfl := Render.intercalate_inj (hl₁.lines_oneLine hr₁.wellFormed)
    (hl₂.lines_oneLine hr₂.wellFormed) (hne hn₁ hl₁) (hne hn₂ hl₂) ht
  rw [hd₁, hd₂, hr₁.eq_of_forall₂ hr₂ (hl₁.same hl₂ hr₁.wellFormed hr₂.wellFormed)]

end

/-- The plain listing of a script is there up to the length at which addresses outgrow the
numbers that can be written, and it is the listing of just those scripts that have the same
normal form. -/
theorem plainListing_determines_script (machine : Machine)
    (lookup : Text → Except ε (List Text)) {s₁ s₂ : Bytes} {is₁ is₂ : List Instruction}
    (h₁ : Script.disassemble s₁ = .ok is₁)
    (h₂ : Script.disassemble s₂ = .ok is₂) :
    (s₁.length < 10 ^ (Text.digitLimit - 1) → ∃ t, plainListing machine lookup s₁ = some t) ∧
      ∀ t, plainListing machine lookup s₁ = some t →
        (plainListing machine lookup s₂ = some t ↔ Script.normalize s₁ = Script.normalize s₂) := by
  refine ⟨exists_plainListing h₁, fun t ht₁ => ⟨fun ht₂ => ?_, fun hn => ?_⟩⟩
  · have he := disassemble_eq_of_plainListing ht₁ ht₂
    rw [h₁, h₂] at he
    obtain rfl := Except.ok.inj he
    rw [← (Script.row_of_disassemble h₁).2.1, (Script.row_of_disassemble h₂).2.1]
  · have he := Script.disassemble_normalize h₂
    rw [← hn, Script.disassemble_normalize h₁, ← h₁, ← h₂] at he
    rw [← ht₁]
    unfold plainListing
    rw [he]

/-- The return at the end may be left out, but a byte of data is not mistaken for it. -/
theorem plainListing_determines_script_data :
    let machine := Machine.ofDepth 1
    let lookup : Text → Except Empty (List Text) := fun _ => .ok []
    ∃ t, plainListing machine lookup [0x0C, 2, 0x0D, 0x0A] = some t ∧
      plainListing machine lookup [0x0C, 2, 0x0D, 0x0A, 0x40] = some t ∧
        plainListing machine lookup [0x0C, 2, 0x0D, 0x40] ≠ some t := by
  intro machine lookup
  have hopen : Script.disassemble [0x0C, 2, 0x0D, 0x0A] =
      .ok [⟨0, .counted 0x0C "PUSHDATA1" 1, [0x0D, 0x0A]⟩, ⟨4, .ret, []⟩] := by cbv
  have hclosed : Script.disassemble [0x0C, 2, 0x0D, 0x0A, 0x40] =
      .ok [⟨0, .counted 0x0C "PUSHDATA1" 1, [0x0D, 0x0A]⟩, ⟨4, .ret, []⟩] := by cbv
  have hother : Script.disassemble [0x0C, 2, 0x0D, 0x40] =
      .ok [⟨0, .counted 0x0C "PUSHDATA1" 1, [0x0D, 0x40]⟩, ⟨4, .ret, []⟩] := by cbv
  have hlen : 4 < 10 ^ (Text.digitLimit - 1) :=
    Nat.lt_of_lt_of_le (by decide : 4 < 10 ^ 1) (Nat.pow_le_pow_right (by decide) (by decide))
  obtain ⟨t, ht⟩ := (plainListing_determines_script machine lookup hopen hclosed).1 hlen
  refine ⟨t, ht, ?_, ?_⟩
  · exact ((plainListing_determines_script machine lookup hopen hclosed).2 t ht).mpr (by cbv)
  · intro h
    have hn := ((plainListing_determines_script machine lookup hopen hother).2 t ht).mp h
    have ha : Script.normalize [0x0C, 2, 0x0D, 0x0A] = [0x0C, 2, 0x0D, 0x0A, 0x40] := by cbv
    have hb : Script.normalize [0x0C, 2, 0x0D, 0x40] = [0x0C, 2, 0x0D, 0x40, 0x40] := by cbv
    rw [ha, hb] at hn
    exact absurd hn (by decide)

end NeoListing

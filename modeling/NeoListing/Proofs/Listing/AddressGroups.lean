import NeoListing.Proofs.Listing.MethodBrackets
import NeoListing.Proofs.Listing.RenderedLines

/-! # Groups of lines

The lines of a listing come in blocks, one for each instruction, with one empty line between each
two of them. Rendering looks only at the addresses of neighbouring entries, so this rests on the
plan: the entries of an instruction stand together, and the next instruction has another address.
-/

namespace NeoListing.Render

/-! ## Blocks with an empty line between each two -/

section Blocks

def spaced (bs : List (List Text)) : List Text := [[]].intercalate bs

def Solid (b : List Text) : Prop := b ≠ [] ∧ [] ∉ b

variable {b : List Text} {bs : List (List Text)}

theorem spaced_cons (b : List Text) (bs : List (List Text)) :
    spaced (b :: bs) = b ++ bs.flatMap ([] :: ·) :=
  intercalate_cons [[]] b bs

theorem length_spaced (hn : bs ≠ []) :
    (spaced bs).length + 1 = bs.flatten.length + bs.length := by
  obtain ⟨b, bs, rfl⟩ := List.exists_cons_of_ne_nil hn
  rw [spaced_cons]
  clear hn
  induction bs with
  | nil => simp
  | cons b' bs ih =>
    simp only [List.flatMap_cons, List.flatten_cons, List.length_append, List.length_cons] at ih ⊢
    omega

theorem count_spaced (hn : bs ≠ []) (h : ∀ b ∈ bs, Solid b) :
    (spaced bs).count [] + 1 = bs.length := by
  obtain ⟨b, bs, rfl⟩ := List.exists_cons_of_ne_nil hn
  rw [List.forall_mem_cons] at h
  rw [spaced_cons, List.count_append, List.count_eq_zero.mpr h.1.2, Nat.zero_add, List.length_cons]
  obtain ⟨-, h⟩ := h
  clear hn
  induction bs with
  | nil => rfl
  | cons b' bs ih =>
    rw [List.forall_mem_cons] at h
    have ih := ih h.2
    rw [List.flatMap_cons, List.count_append, List.count_cons_self,
      List.count_eq_zero.mpr h.1.2, List.length_cons]
    omega

theorem filter_of_solid (h : Solid b) : b.filter (fun l => !l.isEmpty) = b := by
  apply List.filter_eq_self.mpr
  intro l hl
  cases l with
  | nil => exact absurd hl h.2
  | cons c l => rfl

theorem filter_spaced (h : ∀ b ∈ bs, Solid b) :
    (spaced bs).filter (fun l => !l.isEmpty) = bs.flatten := by
  cases bs with
  | nil => rfl
  | cons b bs =>
    rw [List.forall_mem_cons] at h
    rw [spaced_cons, List.filter_append, filter_of_solid h.1, List.flatten_cons]
    congr 1
    obtain ⟨-, h⟩ := h
    induction bs with
    | nil => rfl
    | cons b' bs ih =>
      rw [List.forall_mem_cons] at h
      rw [List.flatMap_cons, List.filter_append, ih h.2, List.flatten_cons]
      congr 1
      exact filter_of_solid h.1

/-- The first line of a block stays the first. -/
theorem head?_append_of_solid (h : Solid b) (ls : List Text) :
    ∀ l ∈ (b ++ ls).head?, l ≠ [] := by
  obtain ⟨l, b, rfl⟩ := List.exists_cons_of_ne_nil h.1
  rintro m hm rfl
  cases hm
  exact h.2 List.mem_cons_self

theorem isChain_of_solid (h : Solid b) : b.IsChain fun l m => l ≠ [] ∨ m ≠ [] := by
  apply List.Pairwise.isChain
  apply List.pairwise_of_forall_mem_list
  intro l hl m _
  exact .inl fun he => h.2 (he ▸ hl)

/-- Of two lines in a row one is not empty, and the last line is not. -/
theorem isChain_append_flatMap (hb : Solid b) (h : ∀ b ∈ bs, Solid b) :
    (b ++ bs.flatMap ([] :: ·)).IsChain (fun l m => l ≠ [] ∨ m ≠ []) ∧
      ∀ l ∈ (b ++ bs.flatMap ([] :: ·)).getLast?, l ≠ [] := by
  induction bs generalizing b with
  | nil =>
    rw [List.flatMap_nil, List.append_nil]
    exact ⟨isChain_of_solid hb, fun l hl he => hb.2 (he ▸ List.mem_of_getLast? hl)⟩
  | cons b' bs ih =>
    rw [List.forall_mem_cons] at h
    obtain ⟨hc, hl⟩ := ih h.1 h.2
    have hne : b' ++ bs.flatMap ([] :: ·) ≠ [] := by simp [h.1.1]
    have hf : (b' :: bs).flatMap ([] :: ·) = [] :: (b' ++ bs.flatMap ([] :: ·)) := rfl
    rw [hf]
    refine ⟨List.isChain_append.mpr ⟨isChain_of_solid hb, ?_, ?_⟩, ?_⟩
    · refine List.isChain_cons.mpr ⟨fun m hm => .inr ?_, hc⟩
      exact head?_append_of_solid h.1 _ m hm
    · intro l hl' m _
      exact .inl fun he => hb.2 (he ▸ List.mem_of_getLast? hl')
    · rw [List.getLast?_append_of_ne_nil _ (List.cons_ne_nil _ _), List.getLast?_cons_of_ne_nil hne]
      exact hl

end Blocks

/-! ## Blocks of a plan -/

section Rendering

variable {machine : Machine} {width : Int} {colours : Bool}

def IsBlockOf (machine : Machine) (width : Int) (colours : Bool) (g : List Entry)
    (b : List Text) : Prop :=
  List.Forall₂ (fun e line => entry machine width colours e = .ok line) g b

def IsGroupAt (address : Int) (g : List Entry) : Prop := g ≠ [] ∧ ∀ e ∈ g, e.address = address

variable {g : List Entry} {b : List Text}

theorem IsBlockOf.solid (h : IsBlockOf machine width colours g b) (hg : g ≠ []) : Solid b := by
  refine ⟨?_, ?_⟩
  · rintro rfl
    exact hg (List.forall₂_nil_right_iff.mp h)
  · intro hn
    clear hg
    induction h with
    | nil => cases hn
    | cons he _ ih =>
      rcases List.mem_cons.mp hn with rfl | hn
      · exact entry_ne_nil he rfl
      · exact ih hn

/-- Entries at the last address follow without an empty line. -/
theorem linesFrom_append {address : Int} (h : IsBlockOf machine width colours g b)
    (hg : ∀ e ∈ g, e.address = address) {rest : List Entry} {ls : List Text}
    (hr : linesFrom machine width colours (some address) rest = .ok ls) :
    linesFrom machine width colours (some address) (g ++ rest) = .ok (b ++ ls) := by
  induction h with
  | nil => exact hr
  | cons he _ ih =>
    rw [List.forall_mem_cons] at hg
    have hmore := ih hg.2
    rw [← hg.1] at hmore
    rw [List.cons_append, ← hg.1, linesFrom_cons _ he hmore, gap_self]
    rfl

/-- A first group, or one at a new address, is set off by what stands before its first entry. -/
theorem linesFrom_group {address : Int} {last : Option Int}
    (h : IsBlockOf machine width colours g b) (hg : IsGroupAt address g) (hl : last ≠ some address)
    {rest : List Entry} {ls : List Text}
    (hr : linesFrom machine width colours (some address) rest = .ok ls) :
    linesFrom machine width colours last (g ++ rest) =
      .ok (last.elim [] (fun _ => [[]]) ++ b ++ ls) := by
  obtain ⟨hne, hg⟩ := hg
  cases h with
  | nil => exact absurd rfl hne
  | cons he hb =>
    rw [List.forall_mem_cons] at hg
    obtain ⟨rfl, hg⟩ := hg
    have hmore := linesFrom_append hb hg hr
    rw [List.cons_append, linesFrom_cons last he hmore]
    cases last with
    | none =>
      rw [gap_none]
      rfl
    | some a =>
      rw [gap_of_ne fun ha => hl (congrArg some ha)]
      rfl

section Groups

variable {addresses : List Int} {gs : List (List Entry)} {bs : List (List Text)}

theorem linesFrom_groups {address : Int} (hg : List.Forall₂ IsGroupAt addresses gs)
    (hc : (address :: addresses).IsChain (· ≠ ·))
    (hb : List.Forall₂ (IsBlockOf machine width colours) gs bs) :
    linesFrom machine width colours (some address) gs.flatten = .ok (bs.flatMap ([] :: ·)) := by
  induction hg generalizing address bs with
  | nil =>
    cases hb
    rfl
  | cons hg _ ih =>
    cases hb with
    | cons hb hbs =>
      rw [List.isChain_cons_cons] at hc
      have hl : some address ≠ some _ := fun e => hc.1 (Option.some.inj e)
      rw [List.flatten_cons, linesFrom_group hb hg hl (ih hc.2 hbs)]
      rfl

/-- Groups at addresses that differ from one to the next are rendered to blocks with empty lines
between them. -/
theorem lines_groups (hg : List.Forall₂ IsGroupAt addresses gs) (hc : addresses.IsChain (· ≠ ·))
    (hb : List.Forall₂ (IsBlockOf machine width colours) gs bs) :
    lines machine width colours gs.flatten = .ok (spaced bs) := by
  cases hg with
  | nil =>
    cases hb
    rfl
  | cons hg hgs =>
    cases hb with
    | cons hb hbs =>
      rw [lines, List.flatten_cons,
        linesFrom_group hb hg (by simp) (linesFrom_groups hgs hc hbs), spaced_cons]
      rfl

theorem exists_blocks (h : ∀ e ∈ gs.flatten, Renderable machine width e) :
    ∃ bs, List.Forall₂ (IsBlockOf machine width colours) gs bs := by
  induction gs with
  | nil => exact ⟨[], List.Forall₂.nil⟩
  | cons g gs ih =>
    rw [List.flatten_cons, List.forall_mem_append] at h
    obtain ⟨b, hb⟩ := exists_forall₂_entry colours h.1
    obtain ⟨bs, hbs⟩ := ih h.2
    exact ⟨b :: bs, List.Forall₂.cons hb hbs⟩

theorem solid_of_blocks (hg : List.Forall₂ IsGroupAt addresses gs)
    (hb : List.Forall₂ (IsBlockOf machine width colours) gs bs) : ∀ b ∈ bs, Solid b := by
  induction hg generalizing bs with
  | nil =>
    cases hb
    intro b h
    cases h
  | cons hg _ ih =>
    cases hb with
    | cons hb hbs => exact List.forall_mem_cons.mpr ⟨hb.solid hg.1, ih hbs⟩

theorem flatten_of_blocks (hb : List.Forall₂ (IsBlockOf machine width colours) gs bs) :
    IsBlockOf machine width colours gs.flatten bs.flatten := by
  induction hb with
  | nil => exact List.Forall₂.nil
  | cons hb _ ih => exact List.rel_append hb ih

end Groups

/-! ## Widths that no column can have -/

def misfit (width : Int) : Error :=
  match number width with
  | .error e => e
  | .ok _ =>
    if width < 0 then .negativeWidth width
    else if maxWidth < width then .hugeWidth width
    else .noMemory width

theorem addressText_of_misfit (h : ¬ColumnFits machine width) {address : Int}
    (ha : Text.Writable address) : addressText machine width address = .error (misfit width) := by
  have hdigits : number address = .ok (toString address) := number_eq_ok_iff.mpr ⟨ha, rfl⟩
  unfold addressText misfit
  rw [hdigits]
  cases number width with
  | error e => rfl
  | ok digits =>
    simp only
    by_cases hneg : width < 0
    · rw [if_pos hneg, if_pos hneg]
      rfl
    · by_cases hmax : maxWidth < width
      · rw [if_neg hneg, if_pos hmax, if_neg hneg, if_pos hmax]
        rfl
      · have hroom : (machine.room : Int) < width := by
          by_contra hr
          exact h ⟨Int.not_lt.mp hneg, Int.not_lt.mp hmax, Int.not_lt.mp hr⟩
        simp only [if_neg hneg, if_neg hmax, if_pos hroom]
        rfl

theorem renderable_of_not_isInstruction {e : Entry} (hi : e.isInstruction = false)
    (hw : e.Writable) : Renderable machine width e := by
  cases e with
  | instruction address name operand comment => cases hi
  | _ => exact hw

theorem entry_of_misfit (h : ¬ColumnFits machine width) {e : Entry} (hi : e.isInstruction = true)
    (hw : e.Writable) : entry machine width colours e = .error (misfit width) := by
  cases e with
  | instruction address name operand comment =>
    rw [entry, addressText_of_misfit h hw]
    rfl
  | _ => cases hi

/-- At such a width no instruction can be rendered. -/
theorem linesFrom_of_misfit (h : ¬ColumnFits machine width) {plan : List Entry}
    (hi : ∃ e ∈ plan, e.isInstruction = true) (hw : ∀ e ∈ plan, e.Writable) (last : Option Int) :
    linesFrom machine width colours last plan = .error (misfit width) := by
  induction plan generalizing last with
  | nil =>
    obtain ⟨e, he, -⟩ := hi
    cases he
  | cons e rest ih =>
    rw [List.forall_mem_cons] at hw
    simp only [linesFrom, Outcome.bind_eq_error_iff]
    cases hn : e.isInstruction with
    | true => exact .inl (entry_of_misfit h hn hw.1)
    | false =>
      have hr : Renderable machine width e := renderable_of_not_isInstruction hn hw.1
      obtain ⟨line, hl⟩ := (exists_entry_iff colours).mpr hr
      obtain ⟨e', he', hi'⟩ := hi
      rcases List.mem_cons.mp he' with rfl | he'
      · rw [hn] at hi'
        cases hi'
      · exact .inr ⟨line, hl, .inl (ih ⟨e', he', hi'⟩ hw.2 _)⟩

theorem forall_renderable_iff {plan : List Entry} (hi : ∃ e ∈ plan, e.isInstruction = true) :
    (∀ e ∈ plan, Renderable machine width e) ↔
      ColumnFits machine width ∧ ∀ e ∈ plan, e.Writable := by
  constructor
  · intro h
    constructor
    · obtain ⟨e, he, hi⟩ := hi
      cases e with
      | instruction address name operand comment => exact (h _ he).1
      | _ => cases hi
    · intro e he
      cases e with
      | instruction address name operand comment => exact (h _ he).2
      | _ => exact h _ he
  · rintro ⟨hc, hw⟩
    exact renderable_of_writable hc hw

theorem written_eq {ls : List Text} (h : ls ≠ []) :
    written ls = (Text.ofString "\n").intercalate ls ++ Text.ofString "\n" := by
  obtain ⟨l, ls, rfl⟩ := List.exists_cons_of_ne_nil h
  clear h
  induction ls generalizing l with
  | nil => simp [written]
  | cons l' ls ih =>
    rw [List.intercalate_cons_cons, List.append_assoc, ← ih l']
    rfl

end Rendering

/-! ## The lines of a script -/

/-- The lines of a plan in blocks, one for each instruction. One empty line stands between each two
blocks, none at the ends and none elsewhere, and all other lines are those of the entries. -/
structure IsSpaced (machine : Machine) (width : Int) (colours : Bool) (is : List Instruction)
    (plan : List Entry) (ls : List Text) : Prop where
  blocks : ∃ groups blocks, plan = groups.flatten ∧
    List.Forall₂ (fun (i : Instruction) g => IsGroupAt i.address g) is groups ∧
    List.Forall₂ (IsBlockOf machine width colours) groups blocks ∧ ls = [[]].intercalate blocks
  length_eq : ls.length + 1 = plan.length + is.length
  count_empty : ls.count [] + 1 = is.length
  head_ne : ls.head? ≠ some []
  last_ne : ls.getLast? ≠ some []
  never_two : ls.IsChain fun l m => l ≠ [] ∨ m ≠ []
  others : IsBlockOf machine width colours plan (ls.filter fun l => !l.isEmpty)

theorem isSpaced_spaced {machine : Machine} {width : Int} {colours : Bool}
    {is : List Instruction} {gs : List (List Entry)} {bs : List (List Text)} (hn : is ≠ [])
    (hg : List.Forall₂ (fun (i : Instruction) g => IsGroupAt i.address g) is gs)
    (hb : List.Forall₂ (IsBlockOf machine width colours) gs bs) :
    IsSpaced machine width colours is gs.flatten (spaced bs) := by
  have hg' : List.Forall₂ IsGroupAt (is.map fun i => (i.address : Int)) gs :=
    List.forall₂_map_left_iff.mpr hg
  have hs := solid_of_blocks hg' hb
  have hf := flatten_of_blocks hb
  have hlen : bs.length = is.length := (hg.length_eq.trans hb.length_eq).symm
  obtain ⟨b, bs, rfl⟩ : ∃ b bs', bs = b :: bs' := by
    apply List.exists_cons_of_ne_nil
    rintro rfl
    exact hn (List.length_eq_zero_iff.mp hlen.symm)
  obtain ⟨hb0, hbs⟩ := List.forall_mem_cons.mp hs
  obtain ⟨hchain, hlast⟩ := isChain_append_flatMap hb0 hbs
  have hhead := head?_append_of_solid hb0 (bs.flatMap ([] :: ·))
  rw [← spaced_cons] at hchain hlast hhead
  refine ⟨⟨gs, b :: bs, rfl, hg, hb, rfl⟩, ?_, ?_, fun h => hhead [] h rfl,
    fun h => hlast [] h rfl, hchain, ?_⟩
  · rw [length_spaced (List.cons_ne_nil b bs), hlen, hf.length_eq]
  · rw [count_spaced (List.cons_ne_nil b bs) hs, hlen]
  · rw [filter_spaced hs]
    exact hf

section Script

variable {ε : Type} {s : Bytes} {is : List Instruction} {sources : Plan.Sources ε}
  {plan : List Entry}

theorem isGroupAt_of_isGroupOf {context : Comment.Context} {marks : Landmarks} {i : Instruction}
    {g : List Entry} (h : Plan.IsGroupOf context marks i g) : IsGroupAt i.address g :=
  ⟨h.ne_nil, h.address_eq⟩

theorem exists_instruction_of_build (hn : is ≠ []) (hb : (Plan.build sources is).1 = .ok plan) :
    ∃ e ∈ plan, e.isInstruction = true := by
  obtain ⟨i, is, rfl⟩ := List.exists_cons_of_ne_nil hn
  obtain ⟨e, es, -, -, he⟩ := List.forall₂_cons_left_iff.mp (Plan.instructions_of_build hb)
  exact ⟨e, List.mem_filter.mp (he ▸ List.mem_cons_self)⟩

/-- The lines of a plan stand in one block for each instruction, with one empty line between each
two blocks, and what is written is the listing with an end to its last line. There are lines just
if the column of addresses fits and all numbers in the plan can be written. -/
theorem lines_space_instructions (h : Script.disassemble s = .ok is)
    (hb : (Plan.build sources is).1 = .ok plan) (machine : Machine) (width : Int)
    (colours : Bool) :
    (ColumnFits machine width → (∀ e ∈ plan, e.Writable) →
      ∃ ls text, lines machine width colours plan = .ok ls ∧
        IsSpaced machine width colours is plan ls ∧
        listing machine width colours plan = .ok text ∧ written ls = text ++ Text.ofString "\n") ∧
    (¬ColumnFits machine width → (∀ e ∈ plan, e.Writable) →
      lines machine width colours plan = .error (misfit width)) ∧
    ((∃ e ∈ plan, ¬e.Writable) → ∀ ls, lines machine width colours plan ≠ .ok ls) := by
  obtain ⟨hr, -, hn⟩ := Script.row_of_disassemble h
  have hi := exists_instruction_of_build hn hb
  refine ⟨fun hf hw => ?_, fun hf hw => linesFrom_of_misfit hf hi hw none, ?_⟩
  rotate_left
  · rintro ⟨e, he, hu⟩ ls hl
    have hall := (exists_linesFrom_iff colours none).mp ⟨ls, hl⟩
    exact hu (((forall_renderable_iff hi).mp hall).2 e he)
  obtain ⟨gs, rfl, hgs⟩ := Plan.groups_of_build hb
  have hg : List.Forall₂ (fun (i : Instruction) g => IsGroupAt i.address g) is gs :=
    hgs.imp fun _ _ => isGroupAt_of_isGroupOf
  have hc : (is.map fun i => (i.address : Int)).IsChain (· ≠ ·) := by
    rw [List.isChain_map]
    refine hr.pairwise_address_lt.isChain.imp ?_
    intro i j hij
    omega
  obtain ⟨bs, hbs⟩ : ∃ bs, List.Forall₂ (IsBlockOf machine width colours) gs bs :=
    exists_blocks ((forall_renderable_iff hi).mpr ⟨hf, hw⟩)
  have hl := lines_groups (List.forall₂_map_left_iff.mpr hg) hc hbs
  have hspaced := isSpaced_spaced hn hg hbs
  have hne : spaced bs ≠ [] := by
    intro he
    have hnil := hspaced.others
    rw [he] at hnil
    obtain ⟨e, hmem, -⟩ := hi
    rw [List.forall₂_nil_right_iff.mp hnil] at hmem
    cases hmem
  exact ⟨spaced bs, _, hl, hspaced, by rw [listing, hl]; rfl, written_eq hne⟩

end Script

/-- Two methods of one instruction each, and the return that is added behind them. -/
theorem lines_space_instructions_sample :
    let info : DebugInfo := ⟨[], none, [⟨"N", "f", 0, 0, []⟩, ⟨"N", "g", 1, 1, []⟩]⟩
    let sources : Plan.Sources Empty := ⟨some info, [], ⟨[], []⟩, fun _ => .ok []⟩
    let machine := Machine.ofDepth 1
    ∃ is plan, Script.disassemble [0x11, 0x12] = .ok is ∧
      (Plan.build sources is).1 = .ok plan ∧ ∃ ls text, lines machine 2 true plan = .ok ls ∧
        IsSpaced machine 2 true is plan ls ∧ listing machine 2 true plan = .ok text ∧
        written ls = text ++ Text.ofString "\n" := by
  intro info sources machine
  have h : Script.disassemble [0x11, 0x12] =
      .ok [⟨0, .bare 0x11 "PUSH1", []⟩, ⟨1, .bare 0x12 "PUSH2", []⟩, ⟨2, .ret, []⟩] := by cbv
  have hb : (Plan.build sources [⟨0, .bare 0x11 "PUSH1", []⟩, ⟨1, .bare 0x12 "PUSH2", []⟩,
      ⟨2, .ret, []⟩]).1 = .ok [.methodStart 0 (Text.ofString "N.f"), .instruction 0 "PUSH1" "" [],
        .methodEnd 0 (Text.ofString "N.f"), .methodStart 1 (Text.ofString "N.g"),
        .instruction 1 "PUSH2" "" [], .methodEnd 1 (Text.ofString "N.g"),
        .instruction 2 "RET" "" []] := by cbv
  have hsmall : ∀ n : Int, n.natAbs ≤ 2 → Text.Writable n := fun n hn =>
    Text.writable_of_natAbs_le hn (by decide)
  have hw : ∀ e ∈ [Entry.methodStart 0 (Text.ofString "N.f"), .instruction 0 "PUSH1" "" [],
      .methodEnd 0 (Text.ofString "N.f"), .methodStart 1 (Text.ofString "N.g"),
      .instruction 1 "PUSH2" "" [], .methodEnd 1 (Text.ofString "N.g"),
      .instruction 2 "RET" "" []], e.Writable := by
    simp [Entry.Writable, hsmall]
  exact ⟨_, _, h, hb, (lines_space_instructions h hb machine 2 true).1
    ⟨by decide, by decide, by decide⟩ hw⟩

/-- No machine has lines where an address would have to be written with too many digits. -/
theorem lines_of_huge_width :
    let sources : Plan.Sources Empty := ⟨none, [], ⟨[], []⟩, fun _ => .ok []⟩
    ∃ is plan, Script.disassemble [0x40] = .ok is ∧ (Plan.build sources is).1 = .ok plan ∧
      ∀ machine,
        lines machine 9223372036854775808 false plan = .error (.hugeWidth 9223372036854775808) ∧
        ¬∃ ls, lines machine 9223372036854775808 false plan = .ok ls ∧
          ls.length + 1 = plan.length + is.length := by
  intro sources
  have h : Script.disassemble [0x40] = .ok [⟨0, .ret, []⟩] := by cbv
  have hc : Comment.ofInstruction ⟨[], []⟩ ⟨0, .ret, []⟩ = .ok [] := by cbv
  have hb : (Plan.build sources [⟨0, .ret, []⟩]).1 = .ok [.instruction 0 "RET" "" []] :=
    (Plan.build_of_nothing_eq_ok_iff rfl rfl).mpr
      (List.Forall₂.cons ⟨[], hc, rfl⟩ List.Forall₂.nil)
  have hl : ∀ machine, lines machine 9223372036854775808 false [.instruction 0 "RET" "" []] =
      .error (.hugeWidth 9223372036854775808) := fun machine => rfl
  refine ⟨_, _, h, hb, fun machine => ⟨hl machine, ?_⟩⟩
  rintro ⟨ls, hls, -⟩
  rw [hl machine] at hls
  cases hls

end NeoListing.Render

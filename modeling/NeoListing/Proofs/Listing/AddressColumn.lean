import NeoListing.Proofs.Listing.AddressGroups
import NeoListing.Proofs.Listing.Colours
import NeoListing.Proofs.Listing.PlainListing
import NeoListing.Proofs.Text.Decimal

/-! # The column of addresses

The width of a listing is taken from its last instruction alone. Addresses only grow, so no address
needs more digits than the last, every address is filled up to the same width, and the column can
be sorted as text.
-/

namespace NeoListing

abbrev columnWidth (is : List Instruction) : Nat :=
  addressWidth (is.map fun i => (i.address : Int))

theorem columnWidth_concat (is : List Instruction) (last : Instruction) :
    columnWidth (is ++ [last]) = (Nat.toDigits 10 last.address).length := by
  have hr : (toString (last.address : Int)) = last.address.repr := rfl
  rw [columnWidth, addressWidth, List.getLast?_map, List.getLast?_concat, Option.map_some]
  simp only [hr]
  rw [← String.length_toList, Nat.toList_repr]

/-- No address needs more digits than the last one. -/
theorem Script.Row.length_toDigits_le {address : Nat} {is : List Instruction}
    (h : Row address is) {i : Instruction} (hi : i ∈ is) :
    (Nat.toDigits 10 i.address).length ≤ columnWidth is := by
  obtain ⟨before, last, rfl⟩ :=
    (List.eq_nil_or_concat' is).resolve_left (List.ne_nil_of_mem hi)
  have hlast : i.address ≤ last.address := by
    obtain ⟨-, -, hlt⟩ := List.pairwise_append.mp h.pairwise_address_lt
    rcases List.mem_append.mp hi with hi | hi
    · exact Nat.le_of_lt (hlt i hi last List.mem_cons_self)
    · rw [List.mem_singleton.mp hi]
  have hpos : 0 < (Nat.toDigits 10 last.address).length := Nat.length_toDigits_pos
  rw [columnWidth_concat, Nat.length_toDigits_le_iff (by decide) hpos]
  refine Nat.lt_of_le_of_lt hlast ?_
  rw [← Nat.length_toDigits_le_iff (by decide) hpos]

namespace Render

theorem toList_padded (width n : Nat) :
    (padded width (toString (n : Int))).toList =
      List.replicate (width - (Nat.toDigits 10 n).length) '0' ++ Nat.toDigits 10 n := by
  have hdigits : (toString (n : Int)).toList = Nat.toDigits 10 n := Nat.toList_repr
  have hsign : ∀ c ∈ Nat.toDigits 10 n, ¬(c == '-') = true := by
    intro c hc hd
    rw [beq_iff_eq.mp hd] at hc
    exact absurd (toDigits_isDigit hc) (by decide)
  simp only [padded, String.toList_ofList, ← String.length_toList, hdigits]
  rw [List.takeWhile_eq_nil_iff.mpr fun _ => hsign _ (List.get_mem _ _),
    List.dropWhile_eq_self_iff.mpr fun _ => hsign _ (List.get_mem _ _), List.nil_append]

/-! ## Fields of one width -/

def ShowsNumber (width n : Nat) (field : Text) : Prop :=
  ∃ digits : List Char, field = digits.map .scalar ∧ digits.length = width ∧
    (∀ c ∈ digits, c.isDigit = true) ∧ Text.digitsValue digits = n

theorem showsNumber_padded {width n : Nat} (h : (Nat.toDigits 10 n).length ≤ width) :
    ShowsNumber width n (Text.ofString (padded width (toString (n : Int)))) := by
  refine ⟨(padded width (toString (n : Int))).toList, rfl, ?_,
    fun c hc => isDigit_of_mem_padded hc, ?_⟩
  · rw [toList_padded, List.length_append, List.length_replicate]
    omega
  · rw [toList_padded, Text.digitsValue_replicate_zero_append, Text.digitsValue_toDigits]

/-- Fields of one width stand in a dictionary in the order of their numbers. -/
theorem ShowsNumber.before_iff {width n m : Nat} {field field' : Text}
    (h : ShowsNumber width n field) (h' : ShowsNumber width m field') :
    field.Before field' ↔ n < m := by
  obtain ⟨cs, rfl, hl, hd, rfl⟩ := h
  obtain ⟨cs', rfl, hl', hd', rfl⟩ := h'
  rw [Text.before_map_scalar, Text.map_toNat_lt_iff hd hd' (hl.trans hl'.symm)]

/-! ## The field of a line -/

section Erase

variable (colours : Bool) (colour : Colour)

theorem erase_paint_append {t : Text} (h : Colour.escape ∉ t) (rest : Text) :
    Colour.erase (paint colours colour t ++ rest) = t ++ Colour.erase rest := by
  cases colours with
  | false => exact Colour.erase_append_of_not_mem h rest
  | true =>
    simp only [paint, if_true, List.append_assoc]
    rw [Colour.erase_code_append (Colour.code_mem_codes colour),
      Colour.erase_append_of_not_mem h, Colour.erase_code_append Colour.reset_mem_codes]

theorem exists_erase_paint_cons {x : CodePoint} (h : x ≠ Colour.escape) (t rest : Text) :
    ∃ more, Colour.erase (paint colours colour (x :: t) ++ rest) = x :: more := by
  cases colours with
  | false => exact ⟨_, Colour.erase_cons_of_ne h (t ++ rest)⟩
  | true =>
    simp only [paint, if_true, List.append_assoc, List.cons_append]
    rw [Colour.erase_code_append (Colour.code_mem_codes colour), Colour.erase_cons_of_ne h]
    exact ⟨_, rfl⟩

end Erase

/-- What stands on a line before its first blank, colours aside. -/
def addressField (line : Text) : Text :=
  (Colour.erase line).takeWhile (· != .scalar ' ')

theorem operandText_eq_cons (name operand : String) :
    ∃ rest, Text.ofString (operandText name operand) = .scalar ' ' :: rest := by
  unfold operandText
  split <;> simp only [Text.ofString_append, List.append_assoc] <;> exact ⟨_, rfl⟩

theorem addressField_of_entry {machine : Machine} {width : Int} {colours : Bool} {address : Nat}
    {name operand : String} {comment line : Text}
    (h : entry machine width colours (.instruction address name operand comment) = .ok line) :
    addressField line = Text.ofString (padded width.toNat (toString (address : Int))) := by
  simp only [entry, Outcome.bind_eq_ok_iff] at h
  obtain ⟨a, ha, h⟩ := h
  obtain ⟨-, -, rfl⟩ := addressText_eq_ok_iff.mp ha
  obtain rfl := Except.ok.inj h
  obtain ⟨rest, hrest⟩ := operandText_eq_cons name operand
  obtain ⟨more, hmore⟩ := exists_erase_paint_cons colours .blue
    (show CodePoint.scalar ' ' ≠ Colour.escape by decide) rest (commentText colours comment)
  have hblank := blank_not_mem_padded width.toNat address
  rw [addressField, List.append_assoc, erase_paint_append _ _ (escape_not_mem_padded _ _), hrest,
    hmore, List.takeWhile_append_of_pos, List.takeWhile_cons_of_neg (by simp), List.append_nil]
  intro p hp
  simp only [bne_iff_ne]
  rintro rfl
  exact hblank hp

/-! ## The column of a listing -/

theorem exists_sublist_of_filter {α β : Type} {R : α → β → Prop} {xs : List α} {ys : List β}
    (h : List.Forall₂ R xs ys) (p : α → Bool) :
    ∃ zs, zs.Sublist ys ∧ List.Forall₂ R (xs.filter p) zs := by
  induction h with
  | nil => exact ⟨[], List.Sublist.refl [], List.Forall₂.nil⟩
  | @cons x y xs ys hxy _ ih =>
    obtain ⟨zs, hs, hz⟩ := ih
    by_cases hp : p x = true
    · rw [List.filter_cons_of_pos hp]
      exact ⟨y :: zs, hs.cons_cons y, List.Forall₂.cons hxy hz⟩
    · rw [List.filter_cons_of_neg hp]
      exact ⟨zs, hs.cons y, hz⟩

theorem showsNumber_of_entries {context : Comment.Context} {machine : Machine} {width : Nat}
    {colours : Bool} {is : List Instruction} {es : List Entry} {rows : List Text}
    (hi : List.Forall₂ (Plan.IsEntryOf context) is es)
    (he : List.Forall₂ (fun e row => entry machine width colours e = .ok row) es rows)
    (hw : ∀ i ∈ is, (Nat.toDigits 10 i.address).length ≤ width) :
    List.Forall₂ (fun i row => ShowsNumber width i.address (addressField row)) is rows := by
  induction hi generalizing rows with
  | nil =>
    cases he
    exact List.Forall₂.nil
  | cons hie _ ih =>
    cases he with
    | cons her hrows =>
      obtain ⟨comment, -, rfl⟩ := hie
      rw [List.forall_mem_cons] at hw
      refine List.Forall₂.cons ?_ (ih hrows hw.2)
      rw [addressField_of_entry her]
      exact showsNumber_padded hw.1

section Script

variable {ε : Type} {s : Bytes} {is : List Instruction} {sources : Plan.Sources ε}
  {plan : List Entry}

/-- The addresses of a listing stand in one column: each fills the width, reads back as the address
of its instruction, and any two compare as texts as the addresses do as numbers. -/
theorem addresses_line_up (h : Script.disassemble s = .ok is)
    (hb : (Plan.build sources is).1 = .ok plan) (machine : Machine) (colours : Bool) :
    (s.length < Comment.addressLimit →
      ((∃ ls, lines machine (columnWidth is) colours plan = .ok ls) ↔ ∀ e ∈ plan, e.Writable)) ∧
    ∀ ls, lines machine (columnWidth is) colours plan = .ok ls →
      ∃ rows, rows.Sublist ls ∧
        List.Forall₂ (fun e row => entry machine (columnWidth is) colours e = .ok row)
          (plan.filter Entry.isInstruction) rows ∧
        List.Forall₂ (fun i row => ShowsNumber (columnWidth is) i.address (addressField row))
          is rows ∧
        ∀ x ∈ is.zip rows, ∀ y ∈ is.zip rows,
          ((addressField x.2).Before (addressField y.2) ↔ x.1.address < y.1.address) := by
  obtain ⟨hr, -, hn⟩ := Script.row_of_disassemble h
  constructor
  · intro hs
    have hfits := columnFits_addressWidth machine (Script.address_lt_of_disassemble h hs)
    rw [lines, exists_linesFrom_iff, forall_renderable_iff (exists_instruction_of_build hn hb)]
    exact and_iff_right hfits
  · intro ls hl
    obtain ⟨rows, hsub, hrows⟩ := exists_sublist_of_filter (linesFrom_filter hl) Entry.isInstruction
    have hshows := showsNumber_of_entries (Plan.instructions_of_build hb) hrows
      fun i hi => hr.length_toDigits_le hi
    obtain ⟨-, hzip⟩ := List.forall₂_iff_zip.mp hshows
    refine ⟨rows, hsub.trans List.filter_sublist, hrows, hshows, ?_⟩
    rintro ⟨i, row⟩ hx ⟨j, row'⟩ hy
    exact (hzip hx).before_iff (hzip hy)

end Script

/-- The return behind ten instructions has an address of two digits, so the others get a zero. -/
theorem addresses_line_up_ten :
    let sources : Plan.Sources Empty := ⟨none, [], ⟨[], []⟩, fun _ => .ok []⟩
    let machine := Machine.ofDepth 1
    ∃ is plan ls rows, Script.disassemble (List.replicate 10 0x21) = .ok is ∧ columnWidth is = 2 ∧
      (Plan.build sources is).1 = .ok plan ∧ lines machine 2 true plan = .ok ls ∧
      rows.Sublist ls ∧
      List.Forall₂ (fun i row => ShowsNumber 2 i.address (addressField row)) is rows ∧
      ∀ x ∈ is.zip rows, ∀ y ∈ is.zip rows,
        ((addressField x.2).Before (addressField y.2) ↔ x.1.address < y.1.address) := by
  intro sources machine
  obtain ⟨is, h, hw⟩ : ∃ is, Script.disassemble (List.replicate 10 0x21) = .ok is ∧
      columnWidth is = 2 :=
    ⟨(List.range 10).map (fun a => ⟨a, .bare 0x21 "NOP", []⟩) ++ [⟨10, .ret, []⟩], by cbv, by cbv⟩
  have hs : (List.replicate 10 (0x21 : UInt8)).length < Comment.addressLimit :=
    Nat.lt_trans (m := 256 ^ 1) (by decide) (Comment.pow_lt_addressLimit (by decide))
  have htokens : ∀ token ∈ sources.context.tokens, token.Writable := List.forall_mem_nil _
  obtain ⟨plan, hp, hwritable⟩ := Plan.exists_writable_entries h hs htokens
  have hb : (Plan.build sources is).1 = .ok plan :=
    (Plan.build_of_nothing_eq_ok_iff rfl rfl).mpr hp
  obtain ⟨hdefined, hcolumn⟩ := addresses_line_up h hb machine true
  obtain ⟨ls, hl⟩ := (hdefined hs).mpr hwritable
  obtain ⟨rows, hsub, -, hshows, horder⟩ := hcolumn ls hl
  rw [hw] at hl hshows
  exact ⟨is, plan, ls, rows, h, hw, hb, hl, hsub, hshows, horder⟩

end Render

end NeoListing

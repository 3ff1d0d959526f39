import NeoListing.Listing.Comment
import NeoListing.Proofs.Outcome
import NeoListing.Proofs.TableLookup
import NeoListing.Proofs.Text.Characters
import NeoListing.Proofs.Text.Decimal
import NeoListing.Proofs.Vm.InstructionCodec

/-! # The text of comments

A comment stays on one line, whatever the operand holds, if what it refers to does: line ends
within data are escaped, and the other rules write numbers and names only.
-/

namespace NeoListing

namespace Text

def OneLine (t : Text) : Prop := CodePoint.scalar '\n' ∉ t ∧ CodePoint.scalar '\r' ∉ t

theorem oneLine_append {t u : Text} : OneLine (t ++ u) ↔ OneLine t ∧ OneLine u := by
  simp only [OneLine, List.mem_append, not_or]
  tauto

theorem oneLine_nil : OneLine [] := by
  simp [OneLine]

theorem oneLine_cons {c : Char} {t : Text} :
    OneLine (.scalar c :: t) ↔ '\n' ≠ c ∧ '\r' ≠ c ∧ OneLine t := by
  simp only [OneLine, List.mem_cons, CodePoint.scalar.injEq, not_or]
  tauto

theorem scalar_mem_ofString {c : Char} {s : String} :
    CodePoint.scalar c ∈ ofString s ↔ c ∈ s.toList := by
  simp [ofString]

theorem oneLine_ofString {s : String} :
    OneLine (ofString s) ↔ '\n' ∉ s.toList ∧ '\r' ∉ s.toList := by
  simp only [OneLine, scalar_mem_ofString]

theorem oneLine_of_isAlphanum {s : String} (h : ∀ c ∈ s.toList, c.isAlphanum = true ∨ c = '-') :
    OneLine (ofString s) := by
  rw [oneLine_ofString]
  constructor
  · intro hc
    exact absurd (h _ hc) (by decide)
  · intro hc
    exact absurd (h _ hc) (by decide)

theorem oneLine_int (n : Int) : OneLine (ofString (toString n)) := by
  apply oneLine_of_isAlphanum
  intro c hc
  rcases isDigit_or_dash_of_mem_toString_int hc with h | h
  · exact .inl (by simp [Char.isAlphanum, h])
  · exact .inr h

theorem oneLine_nat (n : Nat) : OneLine (ofString (toString n)) := by
  apply oneLine_of_isAlphanum
  intro c hc
  have h := isDigit_of_mem_toString_nat hc
  exact .inl (by simp [Char.isAlphanum, h])

end Text

namespace Table

variable {κ α : Type} [BEq κ]

theorem mem_put {k : κ} {v : α} {t : Table κ α} {r : κ × α} (h : r ∈ put k v t) :
    r.2 = v ∨ r.2 ∈ t.map Prod.snd := by
  induction t with
  | nil =>
    simp only [put, List.mem_singleton] at h
    exact .inl (by rw [h])
  | cons s t ih =>
    simp only [put] at h
    split at h
    · rcases List.mem_cons.mp h with rfl | h
      · exact .inl rfl
      · exact .inr (List.mem_map_of_mem (List.mem_cons_of_mem _ h))
    · rcases List.mem_cons.mp h with rfl | h
      · exact .inr (List.mem_map_of_mem List.mem_cons_self)
      · rcases ih h with hv | hm
        · exact .inl hv
        · exact .inr (List.mem_cons_of_mem _ hm)

theorem mem_foldl_put {rows t : Table κ α} {r : κ × α}
    (h : r ∈ rows.foldl (fun t r => put r.1 r.2 t) t) :
    r.2 ∈ rows.map Prod.snd ∨ r.2 ∈ t.map Prod.snd := by
  induction rows generalizing t with
  | nil => exact .inr (List.mem_map_of_mem h)
  | cons s rows ih =>
    rcases ih h with hr | ht
    · exact .inl (List.mem_cons_of_mem _ hr)
    · obtain ⟨q, hq, hqr⟩ := List.mem_map.mp ht
      rcases mem_put hq with hv | hm
      · exact .inl (by rw [← hqr, hv]; exact List.mem_cons_self)
      · exact .inr (hqr ▸ hm)

theorem mem_of_get?_ofRows [LawfulBEq κ] {rows : List (κ × α)} {k : κ} {v : α}
    (h : (ofRows rows).get? k = some v) : v ∈ rows.map Prod.snd := by
  rcases mem_foldl_put (mem_of_get? h) with hm | hm
  · exact hm
  · simp at hm

end Table

namespace Service

theorem rows_names {names : List Text} {rs : List (Int × Text)} (h : rows names = .ok rs) :
    rs.map Prod.snd = names := by
  induction names generalizing rs with
  | nil =>
    cases h
    rfl
  | cons name names ih =>
    obtain ⟨n, -, h⟩ := Outcome.bind_eq_ok_iff.mp h
    obtain ⟨rest, hr, h⟩ := Outcome.bind_eq_ok_iff.mp h
    cases h
    rw [List.map_cons, ih hr]

theorem mem_of_get?_table {names : List Text} {t : ServiceTable} (ht : table names = .ok t)
    {n : Int} {name : Text} (h : t.get? n = some name) : name ∈ names := by
  obtain ⟨rs, hr, rfl⟩ := Outcome.map_eq_ok_iff.mp ht
  have hm := Table.mem_of_get?_ofRows h
  rwa [rows_names hr] at hm

theorem mem_of_get?_current {n : Int} {name : Text}
    (h : ServiceTable.current.get? n = some name) : ∃ s ∈ names, Text.ofString s = name := by
  unfold ServiceTable.current at h
  generalize ht : table (names.map Text.ofString) = outcome at h
  cases outcome with
  | error e => simp [Table.get?, Except.toOption] at h
  | ok t => exact List.mem_map.mp (mem_of_get?_table ht h)

theorem names_isBlankless : names.all isBlankless = true := by
  cbv

theorem oneLine_of_get?_current {n : Int} {name : Text}
    (h : ServiceTable.current.get? n = some name) : name.OneLine := by
  obtain ⟨s, hs, rfl⟩ := mem_of_get?_current h
  have hb := List.all_eq_true.mp names_isBlankless s hs
  rw [Text.oneLine_ofString]
  exact ⟨not_mem_of_isBlankless hb (by decide), not_mem_of_isBlankless hb (by decide)⟩

end Service

theorem ScriptHash.oneLine_text (h : ScriptHash) : (Text.ofString h.text).OneLine := by
  have hmark : "0x".toList.all Char.isAlphanum = true := by decide
  apply Text.oneLine_of_isAlphanum
  intro c hc
  rw [ScriptHash.text, String.toList_append] at hc
  rcases List.mem_append.mp hc with hc | hc
  · exact .inl (List.all_eq_true.mp hmark c hc)
  · exact .inl (Bytes.isAlphanum_of_mem_hex hc)

namespace Comment

theorem written_eq_ok_iff {α : Type} {o : Option α} {a : α} : written o = .ok a ↔ o = some a := by
  cases o with
  | none => exact iff_of_false (by rintro ⟨⟩) (by rintro ⟨⟩)
  | some b => simp [written]

theorem number_of_writable {n : Int} (h : Text.Writable n) :
    number n = .ok (Text.ofString (toString n)) := by
  rw [number, Text.decimal?_of_writable h]
  rfl

theorem number_of_not_writable {n : Int} (h : ¬Text.Writable n) :
    number n = .error .tooManyDigits := by
  rw [number, Text.decimal?_of_not_writable h]
  rfl

theorem number_eq_ok_iff {n : Int} {t : Text} :
    number n = .ok t ↔ Text.Writable n ∧ t = Text.ofString (toString n) := by
  by_cases h : Text.Writable n
  · simp [number_of_writable h, h, eq_comm]
  · simp [number_of_not_writable h, h]

theorem oneLine_number {n : Int} {t : Text} (h : number n = .ok t) : t.OneLine := by
  obtain ⟨-, rfl⟩ := number_eq_ok_iff.mp h
  exact Text.oneLine_int n

theorem not_mem_showLineEnd (c : Char) : '\n' ∉ showLineEnd c ∧ '\r' ∉ showLineEnd c := by
  unfold showLineEnd
  split
  · decide
  · split
    · decide
    · rename_i hr hn
      rw [List.mem_singleton, List.mem_singleton]
      exact ⟨Ne.symm hn, Ne.symm hr⟩

theorem oneLine_dataText (operand : Bytes) : (dataText operand).OneLine := by
  unfold dataText
  rw [Text.oneLine_append, Text.oneLine_append]
  refine ⟨⟨Text.oneLine_ofString.mpr (by decide), ?_⟩, Text.oneLine_ofString.mpr (by decide)⟩
  rw [Text.oneLine_ofString, String.toList_ofList]
  constructor
  · intro h
    obtain ⟨c, -, hc⟩ := List.mem_flatMap.mp h
    exact (not_mem_showLineEnd c).1 hc
  · intro h
    obtain ⟨c, -, hc⟩ := List.mem_flatMap.mp h
    exact (not_mem_showLineEnd c).2 hc

theorem oneLine_ofData (operand : Bytes) : (ofData operand).OneLine := by
  unfold ofData
  split
  next hash _ =>
    rw [Text.oneLine_append, Text.oneLine_append, Text.oneLine_append]
    exact ⟨⟨⟨Text.oneLine_ofString.mpr (by decide), hash.oneLine_text⟩,
      Text.oneLine_ofString.mpr (by decide)⟩, oneLine_dataText operand⟩
  next => exact oneLine_dataText operand

theorem oneLine_block {kind : String} (hk : (Text.ofString kind).OneLine) {address offset : Int}
    {t : Text} (h : block kind address offset = .ok t) : t.OneLine := by
  unfold block at h
  split at h
  · obtain rfl := Except.ok.inj h
    rw [Text.oneLine_append, Text.oneLine_append]
    exact ⟨⟨Text.oneLine_ofString.mpr (by decide), hk⟩, Text.oneLine_ofString.mpr (by decide)⟩
  · obtain ⟨n, hn, rfl⟩ := Outcome.map_eq_ok_iff.mp h
    rw [Text.oneLine_append, Text.oneLine_append]
    exact ⟨⟨hk, Text.oneLine_ofString.mpr (by decide)⟩, oneLine_number hn⟩

theorem oneLine_label {n : Int} {s : String} (h : ItemType.label n = some s) :
    (Text.ofString s).OneLine := by
  unfold ItemType.label at h
  split at h
  next t _ =>
    obtain rfl := Option.some.inj h
    rw [Text.oneLine_ofString]
    cases t <;> decide
  next =>
    obtain ⟨-, rfl⟩ := Text.decimal?_eq_some_iff.mp h
    exact Text.oneLine_int n

theorem oneLine_ofJump {address : Int} {operand : Bytes} {t : Text}
    (h : ofJump address operand = .ok t) : t.OneLine := by
  simp only [ofJump, Outcome.bind_eq_ok_iff] at h
  obtain ⟨target, ht, offset, ho, h⟩ := h
  obtain rfl := Except.ok.inj h
  simp only [Text.oneLine_append]
  exact ⟨⟨⟨Text.oneLine_ofString.mpr (by decide), oneLine_number ht⟩,
    Text.oneLine_ofString.mpr (by decide)⟩, oneLine_number ho⟩

theorem oneLine_ofTry {address : Int} {operand : Bytes} {t : Text}
    (h : ofTry address operand = .ok t) : t.OneLine := by
  simp only [ofTry, blocks, Outcome.bind_eq_ok_iff] at h
  obtain ⟨handler, hh, cleanup, hf, h⟩ := h
  obtain rfl := Except.ok.inj h
  simp only [Text.oneLine_append]
  exact ⟨⟨oneLine_block (Text.oneLine_ofString.mpr (by decide)) hh,
    Text.oneLine_ofString.mpr (by decide)⟩,
    oneLine_block (Text.oneLine_ofString.mpr (by decide)) hf⟩

theorem oneLine_ofSlots {operand : Bytes} {t : Text} (h : ofSlots operand = .ok t) :
    t.OneLine := by
  simp only [ofSlots, Outcome.bind_eq_ok_iff] at h
  obtain ⟨localCount, -, argumentCount, -, h⟩ := h
  obtain rfl := Except.ok.inj h
  simp only [Text.oneLine_append]
  exact ⟨⟨⟨Text.oneLine_nat _, Text.oneLine_ofString.mpr (by decide)⟩, Text.oneLine_nat _⟩,
    Text.oneLine_ofString.mpr (by decide)⟩

structure Context.OneLine (context : Context) : Prop where
  tokens : ∀ token ∈ context.tokens, ∀ parts, token.parts? = some parts → parts.describe.OneLine
  services : ∀ n name, context.services.get? n = some name → name.OneLine

theorem Context.oneLine_current : Context.OneLine ⟨[], ServiceTable.current⟩ := by
  constructor
  · intro token h
    cases h
  · intro n name h
    -- the unifier must not compute the table of services
    simp only at h
    exact Service.oneLine_of_get?_current h

theorem oneLine_ofToken {context : Context} (hc : context.OneLine) {operand : Bytes} {t : Text}
    (h : ofToken context.tokens operand = .ok t) : t.OneLine := by
  simp only [ofToken] at h
  split at h
  next token hm =>
    obtain ⟨parts, hp, rfl⟩ := Outcome.map_eq_ok_iff.mp h
    exact hc.tokens token (List.mem_of_getElem? hm) parts (written_eq_ok_iff.mp hp)
  next =>
    obtain ⟨n, hn, rfl⟩ := Outcome.map_eq_ok_iff.mp h
    exact Text.oneLine_append.mpr ⟨Text.oneLine_ofString.mpr (by decide), oneLine_number hn⟩

theorem oneLine_ofService {context : Context} (hc : context.OneLine) {operand : Bytes}
    {t : Text} (h : ofService context.services operand = .ok t) : t.OneLine := by
  simp only [ofService] at h
  split at h
  next name hn =>
    obtain rfl := Except.ok.inj h
    exact hc.services _ _ hn
  next =>
    obtain ⟨n, hn, rfl⟩ := Outcome.map_eq_ok_iff.mp h
    exact Text.oneLine_append.mpr ⟨Text.oneLine_ofString.mpr (by decide), oneLine_number hn⟩

/-- No rule breaks a line, whatever operand it is given. -/
theorem Rule.oneLine_comment {context : Context} (hc : context.OneLine) {rule : Rule}
    {address : Int} {operand : Bytes} {t : Text}
    (h : rule.comment context address operand = .ok t) : t.OneLine := by
  cases rule with
  | integer =>
    simp only [Rule.comment] at h
    exact oneLine_number h
  | minusOne =>
    obtain rfl := Except.ok.inj h
    exact Text.oneLine_ofString.mpr (by decide)
  | data =>
    obtain rfl := Except.ok.inj h
    exact oneLine_ofData operand
  | jump =>
    simp only [Rule.comment] at h
    exact oneLine_ofJump h
  | tryBlock =>
    simp only [Rule.comment] at h
    exact oneLine_ofTry h
  | methodToken =>
    simp only [Rule.comment] at h
    exact oneLine_ofToken hc h
  | service =>
    simp only [Rule.comment] at h
    exact oneLine_ofService hc h
  | staticSlots =>
    simp only [Rule.comment] at h
    obtain ⟨n, -, rfl⟩ := Outcome.map_eq_ok_iff.mp h
    exact Text.oneLine_append.mpr ⟨Text.oneLine_nat n, Text.oneLine_ofString.mpr (by decide)⟩
  | slots =>
    simp only [Rule.comment] at h
    exact oneLine_ofSlots h
  | slotIndex =>
    simp only [Rule.comment] at h
    obtain ⟨n, -, rfl⟩ := Outcome.map_eq_ok_iff.mp h
    exact Text.oneLine_append.mpr ⟨Text.oneLine_ofString.mpr (by decide), Text.oneLine_nat n⟩
  | itemType =>
    simp only [Rule.comment] at h
    obtain ⟨n, -, h⟩ := Outcome.bind_eq_ok_iff.mp h
    obtain ⟨s, hs, rfl⟩ := Option.map_eq_some_iff.mp (written_eq_ok_iff.mp h)
    exact oneLine_label hs

theorem oneLine_ofInstruction {context : Context} (hc : context.OneLine) {i : Instruction}
    {t : Text} (h : ofInstruction context i = .ok t) : t.OneLine := by
  unfold ofInstruction make at h
  split at h
  · exact Rule.oneLine_comment hc h
  · obtain rfl := Except.ok.inj h
    exact Text.oneLine_nil

end Comment

end NeoListing

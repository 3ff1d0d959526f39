import NeoListing.Proofs.Listing.CommentDefined
import NeoListing.Proofs.Listing.InstructionLine
import NeoListing.Proofs.Text.Utf8Codec

/-! # The text of pushed data

The comment on pushed data ends with a text between quotes. If the data encodes a text, that
text stands there, line ends escaped and nothing else changed; whatever the data is, the
comment stays on one line. Data of twenty bytes, and no other, is shown as a script hash first.
-/

namespace NeoListing

namespace Text

def replaceEach (c : Char) (word s : String) : String :=
  String.ofList (s.toList.flatMap (fun d => if d = c then word.toList else [d]))

theorem toList_replaceEach (c : Char) (word s : String) :
    (replaceEach c word s).toList =
      s.toList.flatMap (fun d => if d = c then word.toList else [d]) :=
  String.toList_ofList

/-- The outer quotes of a text enclose another one: the first quote stands right before it
and the last one, which ends the text, right behind it. -/
def Encloses (t inner : Text) : Prop :=
  ∃ head, CodePoint.scalar '"' ∉ head ∧ t = head ++ .scalar '"' :: (inner ++ [.scalar '"'])

theorem Encloses.inner_unique {t a b : Text} (ha : t.Encloses a) (hb : t.Encloses b) : a = b := by
  obtain ⟨head, hh, rfl⟩ := ha
  obtain ⟨front, hf, h⟩ := hb
  obtain ⟨-, h⟩ := word_append_inj hh hf (by simp) (by simp) h
  exact List.append_cancel_right (List.cons.inj h).2

end Text

namespace Comment

def dataNames : List String := ["PUSHDATA1", "PUSHDATA2", "PUSHDATA4"]

theorem make_data {name : String} (h : name ∈ dataNames) (context : Context) (address : Int)
    (operand : Bytes) : make context name address operand = .ok (ofData operand) := by
  have hrules : ∀ name ∈ dataNames, rules.get? name = some .data := by decide
  rw [make_of_rule (hrules name h)]
  rfl

def dataHead (operand : Bytes) : Text :=
  (if operand.length = 20 then
    Text.ofString "as script hash: " ++ Text.ofString ("0x" ++ Bytes.hex operand.reverse ++ ", ")
  else []) ++ Text.ofString "as text: "

theorem ofData_eq (operand : Bytes) :
    ofData operand = dataHead operand ++ .scalar '"' ::
      (Text.ofString (String.ofList ((Text.Utf8.decodeLossy operand).flatMap showLineEnd)) ++
        [.scalar '"']) := by
  have hopen : Text.ofString "as text: \"" = Text.ofString "as text: " ++ [.scalar '"'] := rfl
  have hclose : Text.ofString "\"" = [.scalar '"'] := rfl
  unfold ofData dataHead dataText ScriptHash.ofBytes ScriptHash.text
  by_cases h : operand.length = 20
  · simp [h, hopen, hclose, Text.ofString_append]
  · simp [h, hopen, hclose]

theorem quote_not_mem_dataHead (operand : Bytes) : CodePoint.scalar '"' ∉ dataHead operand := by
  have hhex : '"' ∉ (Bytes.hex operand.reverse).toList := by
    intro h
    exact absurd (Bytes.isAlphanum_of_mem_hex h) (by decide)
  unfold dataHead
  split
  · simp [Text.scalar_mem_ofString, hhex]
  · simp [Text.scalar_mem_ofString]

/-- Line ends may be replaced one kind after the other, as no escape holds a line end. -/
theorem ofList_flatMap_showLineEnd (s : String) :
    String.ofList (s.toList.flatMap showLineEnd) =
      Text.replaceEach '\n' "\"\\n\"" (Text.replaceEach '\r' "\"\\r\"" s) := by
  rw [Text.replaceEach, Text.toList_replaceEach, List.flatMap_assoc]
  congr 2
  funext c
  by_cases hr : c = '\r'
  · subst hr
    decide
  · simp [showLineEnd, hr]

theorem encloses_ofData (s : String) :
    (ofData (Text.Utf8.encode s)).Encloses (Text.ofString
      (Text.replaceEach '\n' "\"\\n\"" (Text.replaceEach '\r' "\"\\r\"" s))) := by
  refine ⟨dataHead (Text.Utf8.encode s), quote_not_mem_dataHead _, ?_⟩
  have hs : Text.Utf8.decodeLossy (Text.Utf8.encode s) = s.toList :=
    Text.Utf8.decodeLossy_flatMap s.toList
  rw [ofData_eq, hs, ofList_flatMap_showLineEnd]

theorem hash_prefix_ofData {operand : Bytes} (h : operand.length = 20) :
    Text.ofString "as script hash: " ++
      Text.ofString ("0x" ++ Bytes.hex operand.reverse ++ ", ") <+: ofData operand := by
  rw [ofData_eq, dataHead, if_pos h, List.append_assoc (_ ++ _)]
  exact List.prefix_append _ _

/-- What is said of other data differs from the prefix in its fourth character. -/
theorem not_hash_prefix_ofData {operand : Bytes} (h : operand.length ≠ 20) :
    ¬Text.ofString "as script hash: " <+: ofData operand := by
  rw [ofData_eq, dataHead, if_neg h]
  rintro ⟨rest, hr⟩
  have hc := congrArg (fun t => t[3]?) hr
  simp [Text.ofString] at hc

/-- The outer quotes of the comment on pushed data enclose the encoded text, each carriage return
and each line feed in it replaced by its escape between quotes. No operand breaks the line, and
exactly those of twenty bytes are announced as a script hash, shown from the last byte to the
first. -/
theorem pushed_text_faithful (context : Context) {name : String} (h : name ∈ dataNames)
    (address : Int) (operand : Bytes) :
    ∃ comment, make context name address operand = .ok comment ∧
      (∀ s, operand = Text.Utf8.encode s → ∀ inner, comment.Encloses inner ↔
        inner = Text.ofString
          (Text.replaceEach '\n' "\"\\n\"" (Text.replaceEach '\r' "\"\\r\"" s))) ∧
      (CodePoint.scalar '\r' ∉ comment ∧ CodePoint.scalar '\n' ∉ comment) ∧
      (Text.ofString "as script hash: " <+: comment ↔ operand.length = 20) ∧
      (operand.length = 20 → Text.ofString "as script hash: " ++
        Text.ofString ("0x" ++ Bytes.hex operand.reverse ++ ", ") <+: comment) := by
  refine ⟨ofData operand, make_data h context address operand, ?_, (oneLine_ofData operand).symm,
    ?_, hash_prefix_ofData⟩
  · rintro s rfl inner
    constructor
    · intro hinner
      exact hinner.inner_unique (encloses_ofData s)
    · intro hi
      rw [hi]
      exact encloses_ofData s
  · constructor
    · intro hp
      by_contra hl
      exact not_hash_prefix_ofData hl hp
    · intro hl
      exact (List.prefix_append _ _).trans (hash_prefix_ofData hl)

/-- Twenty bytes that encode characters of every width and both kinds of line end. -/
theorem pushed_text_faithful_twenty_bytes :
    "PUSHDATA1" ∈ dataNames ∧
      ∃ comment, make ⟨[], []⟩ "PUSHDATA1" 7 (Text.Utf8.encode "é€😀\r\nplain\ttxt") = .ok comment ∧
        comment.Encloses (Text.ofString "é€😀\"\\r\"\"\\n\"plain\ttxt") ∧
        Text.ofString "as script hash: " ++
          Text.ofString "0x747874096e69616c700a0d80989ff0ac82e2a9c3, " <+: comment := by
  have hname : "PUSHDATA1" ∈ dataNames := by decide
  have hlength : (Text.Utf8.encode "é€😀\r\nplain\ttxt").length = 20 := by decide
  have hshown : Text.replaceEach '\n' "\"\\n\""
      (Text.replaceEach '\r' "\"\\r\"" "é€😀\r\nplain\ttxt") =
      "é€😀\"\\r\"\"\\n\"plain\ttxt" := by decide
  have hhex : "0x" ++ Bytes.hex (Text.Utf8.encode "é€😀\r\nplain\ttxt").reverse ++ ", " =
      "0x747874096e69616c700a0d80989ff0ac82e2a9c3, " := by decide
  obtain ⟨comment, hmake, htext, -, -, hhash⟩ :=
    pushed_text_faithful ⟨[], []⟩ hname 7 (Text.Utf8.encode "é€😀\r\nplain\ttxt")
  have hinner := (htext _ rfl _).mpr rfl
  have hhash := hhash hlength
  rw [hshown] at hinner
  rw [hhex] at hhash
  exact ⟨hname, comment, hmake, hinner, hhash⟩

end Comment

end NeoListing

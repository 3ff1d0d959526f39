import NeoListing.Proofs.Listing.CommentText
import NeoListing.Proofs.Listing.RenderedLines

/-! # Colours

A line is a row of parts, each with a colour. Colouring puts the code of the colour before a part
and the reset behind it and changes nothing else, so as long as the parts hold no escape of their
own, erasing the codes leaves the plain listing.
-/

namespace NeoListing

namespace Colour

def escape : CodePoint := .scalar '\x1b'

def all : List Colour := [yellow, blue, green, magenta, cyan]

def codes : List Text := all.map (fun c => Text.ofString c.code) ++ [Text.ofString reset]

def erase : Text → Text
  | [] => []
  | c :: rest =>
    match codes.find? (·.isPrefixOf (c :: rest)) with
    | some code => erase (rest.drop (code.length - 1))
    | none => c :: erase rest
termination_by t => t.length
decreasing_by all_goals simp only [List.length_cons, List.length_drop]; omega

theorem code_mem_codes (c : Colour) : Text.ofString c.code ∈ codes := by
  cases c <;> decide

theorem reset_mem_codes : Text.ofString reset ∈ codes := by decide

/-- A code is an escape with other characters behind it. -/
theorem exists_tail_of_mem_codes {code : Text} (h : code ∈ codes) :
    ∃ tail, code = escape :: tail ∧ escape ∉ tail := by
  have hall : ∀ code ∈ codes, code.head? = some escape ∧ escape ∉ code.tail := by decide
  obtain ⟨hh, ht⟩ := hall code h
  exact ⟨code.tail, List.eq_cons_of_mem_head? hh, ht⟩

/-- No code is the beginning of another. -/
theorem eq_of_append_eq {code code' : Text} (h : code ∈ codes) (h' : code' ∈ codes)
    {t t' : Text} (he : code ++ t = code' ++ t') : code = code' := by
  have hall : ∀ a ∈ codes, ∀ b ∈ codes, a <+: b → a = b := by decide
  have hp : code <+: code' ++ t' := he ▸ List.prefix_append code t
  rcases List.prefix_or_prefix_of_prefix hp (List.prefix_append code' t') with hp | hp
  · exact hall code h code' h' hp
  · exact (hall code' h' code h hp).symm

theorem code_inj : ∀ c c' : Colour, Text.ofString c.code = Text.ofString c'.code → c = c' := by
  intro c c'
  cases c <;> cases c' <;> decide

theorem code_ne_reset (c : Colour) : Text.ofString c.code ≠ Text.ofString reset := by
  cases c <;> decide

theorem erase_cons_of_ne {c : CodePoint} (h : c ≠ escape) (rest : Text) :
    erase (c :: rest) = c :: erase rest := by
  have hn : codes.find? (·.isPrefixOf (c :: rest)) = none := by
    refine List.find?_eq_none.mpr (fun code hc hp => h ?_)
    obtain ⟨tail, rfl, -⟩ := exists_tail_of_mem_codes hc
    exact (List.cons_prefix_cons.mp (List.isPrefixOf_iff_prefix.mp hp)).1.symm
  rw [erase, hn]

theorem erase_append_of_not_mem {t : Text} (h : escape ∉ t) (rest : Text) :
    erase (t ++ rest) = t ++ erase rest := by
  induction t with
  | nil => rfl
  | cons c t ih =>
    obtain ⟨hc, ht⟩ := not_or.mp (mt List.mem_cons.mpr h)
    rw [List.cons_append, erase_cons_of_ne (Ne.symm hc), ih ht, List.cons_append]

theorem erase_code_append {code : Text} (h : code ∈ codes) (rest : Text) :
    erase (code ++ rest) = erase rest := by
  have hf : codes.find? (·.isPrefixOf (code ++ rest)) = some code := by
    -- the first code that the text begins with is the only one
    have hsome : (codes.find? (·.isPrefixOf (code ++ rest))).isSome := by
      rw [List.find?_isSome]
      exact ⟨code, h, List.isPrefixOf_iff_prefix.mpr (List.prefix_append code rest)⟩
    obtain ⟨found, hf⟩ := Option.isSome_iff_exists.mp hsome
    have hp := List.find?_some hf
    obtain ⟨more, hm⟩ := List.isPrefixOf_iff_prefix.mp hp
    rw [hf, eq_of_append_eq (List.mem_of_find?_eq_some hf) h hm]
  obtain ⟨tail, rfl, -⟩ := exists_tail_of_mem_codes h
  rw [List.cons_append] at hf ⊢
  rw [erase, hf]
  change erase ((tail ++ rest).drop tail.length) = erase rest
  rw [List.drop_left]

end Colour

def Entry.texts : Entry → List Text
  | methodStart _ name => [name]
  | methodEnd _ name => [name]
  | source _ fileName _ text => [fileName, text]
  | instruction _ name operand comment =>
    [Text.ofString name, Text.ofString operand, comment]

namespace Render

/-! ## Rows of parts -/

structure Part where
  colour : Colour
  text : Text

def row (colours : Bool) (ps : List Part) : Text :=
  ps.flatMap fun p => paint colours p.colour p.text

def Clean (ps : List Part) : Prop := ∀ p ∈ ps, Colour.escape ∉ p.text

theorem row_cons (colours : Bool) (p : Part) (ps : List Part) :
    row colours (p :: ps) = paint colours p.colour p.text ++ row colours ps :=
  List.flatMap_cons

theorem row_single (colours : Bool) (colour : Colour) (t : Text) :
    row colours [⟨colour, t⟩] = paint colours colour t :=
  List.append_nil _

theorem Clean.nil : Clean [] :=
  fun _ hp => absurd hp List.not_mem_nil

theorem Clean.cons {colour : Colour} {t : Text} {ps : List Part} (h : Colour.escape ∉ t)
    (hps : Clean ps) : Clean (⟨colour, t⟩ :: ps) := by
  intro p hp
  rcases List.mem_cons.mp hp with rfl | hp
  · exact h
  · exact hps p hp

theorem Clean.single {colour : Colour} {t : Text} (h : Colour.escape ∉ t) : Clean [⟨colour, t⟩] :=
  .cons h .nil

theorem Clean.head {p : Part} {ps : List Part} (h : Clean (p :: ps)) : Colour.escape ∉ p.text :=
  h p List.mem_cons_self

theorem Clean.tail {p : Part} {ps : List Part} (h : Clean (p :: ps)) : Clean ps :=
  fun q hq => h q (List.mem_cons_of_mem p hq)

theorem escape_not_mem_row {ps : List Part} (h : Clean ps) : Colour.escape ∉ row false ps := by
  intro he
  obtain ⟨p, hp, he⟩ := List.mem_flatMap.mp he
  exact h p hp he

theorem erase_row_append {ps : List Part} (h : Clean ps) (rest : Text) :
    Colour.erase (row true ps ++ rest) = row false ps ++ Colour.erase rest := by
  induction ps with
  | nil => rfl
  | cons p ps ih =>
    simp only [row_cons, paint, if_true, Bool.false_eq_true, if_false, List.append_assoc]
    rw [Colour.erase_code_append (Colour.code_mem_codes p.colour),
      Colour.erase_append_of_not_mem h.head,
      Colour.erase_code_append Colour.reset_mem_codes, ih h.tail]

/-- A text that is cut at a character lies, up to the cut, behind every part without it. -/
theorem exists_cut_behind {x : CodePoint} {t rest before after : Text} (h : x ∉ t)
    (he : t ++ rest = before ++ x :: after) :
    ∃ more, before = t ++ more ∧ rest = more ++ x :: after := by
  rcases List.append_eq_append_iff.mp he with ⟨more, hb, hr⟩ | ⟨more, ht, hr⟩
  · exact ⟨more, hb, hr⟩
  · cases more with
    | nil => exact ⟨[], by simpa using ht.symm, by simpa using hr.symm⟩
    | cons y more =>
      obtain ⟨rfl, -⟩ := List.cons.inj hr
      exact absurd (ht ▸ List.mem_append_right before List.mem_cons_self) h

/-- An escape of a coloured line begins a part, or ends one. -/
theorem Clean.begins_or_ends {ps : List Part} (h : Clean ps) {before after : Text}
    (he : row true ps = before ++ Colour.escape :: after) :
    (∃ (colour : Colour) (inside back : Text), Colour.escape ∉ inside ∧
      Colour.escape :: after =
        Text.ofString colour.code ++ (inside ++ (Text.ofString Colour.reset ++ back))) ∨
      ∃ back, Colour.escape :: after = Text.ofString Colour.reset ++ back := by
  induction ps generalizing before with
  | nil => simp [row] at he
  | cons p ps ih =>
    have hrow : row true (p :: ps) = Text.ofString p.colour.code ++
        (p.text ++ (Text.ofString Colour.reset ++ row true ps)) := by
      simp only [row_cons, paint, if_true, List.append_assoc]
    obtain ⟨u, hu, hnu⟩ := Colour.exists_tail_of_mem_codes (Colour.code_mem_codes p.colour)
    obtain ⟨v, hv, hnv⟩ := Colour.exists_tail_of_mem_codes Colour.reset_mem_codes
    rw [he] at hrow
    cases before with
    | nil => exact .inl ⟨p.colour, p.text, row true ps, h.head, hrow⟩
    | cons x before =>
      rw [hu, List.cons_append, List.cons_append] at hrow
      obtain ⟨m₁, rfl, h₁⟩ := exists_cut_behind hnu (List.cons.inj hrow).2.symm
      obtain ⟨m₂, rfl, h₂⟩ := exists_cut_behind h.head h₁
      cases m₂ with
      | nil => exact .inr ⟨row true ps, h₂.symm⟩
      | cons y m₂ =>
        rw [hv, List.cons_append, List.cons_append] at h₂
        obtain ⟨m₃, rfl, h₃⟩ := exists_cut_behind hnv (List.cons.inj h₂).2
        exact ih h.tail h₃

/-! ## Parts of entries -/

theorem escape_not_mem_ofString {s : String} :
    Colour.escape ∉ Text.ofString s ↔ '\x1b' ∉ s.toList :=
  not_congr Text.scalar_mem_ofString

theorem escape_not_mem_toString (n : Int) : Colour.escape ∉ Text.ofString (toString n) := by
  rw [escape_not_mem_ofString]
  intro h
  rcases isDigit_or_dash_of_mem_toString_int h with h | h <;> exact absurd h (by decide)

theorem escape_not_mem_padded (width : Nat) (n : Int) :
    Colour.escape ∉ Text.ofString (padded width (toString n)) := by
  rw [escape_not_mem_ofString]
  intro h
  rcases mem_padded h with h | h
  · exact absurd h (by decide)
  · exact escape_not_mem_ofString.mp (escape_not_mem_toString n) h

theorem escape_not_mem_operandText {name operand : String}
    (hn : Colour.escape ∉ Text.ofString name) (ho : Colour.escape ∉ Text.ofString operand) :
    Colour.escape ∉ Text.ofString (operandText name operand) := by
  have hs : Colour.escape ∉ Text.ofString " " := by decide
  unfold operandText
  split <;> simp [Text.ofString_append, hs, hn, ho]

theorem exists_commentParts {comment : Text} (h : Colour.escape ∉ comment) :
    ∃ ps, Clean ps ∧ ∀ colours, commentText colours comment = row colours ps := by
  unfold commentText
  by_cases hc : comment = []
  · exact ⟨[], .nil, fun colours => by rw [if_pos hc]; rfl⟩
  · have hs : Colour.escape ∉ Text.ofString " # " := by decide
    exact ⟨[⟨.green, " # " ++ comment⟩], .single (by simp [hs, h]),
      fun colours => by rw [if_neg hc, row_single]⟩

variable (machine : Machine) (width : Int)

/-- The parts of an entry do not depend on whether they are painted. -/
theorem exists_parts {e : Entry} (h : ∀ t ∈ e.texts, Colour.escape ∉ t) :
    (∃ err, ∀ colours, entry machine width colours e = .error err) ∨
      ∃ ps, Clean ps ∧ ∀ colours, entry machine width colours e = .ok (row colours ps) := by
  cases e with
  | methodStart address name =>
    have hl : Colour.escape ∉ Text.ofString "# Method Start " := by decide
    have hn := h name (by simp [Entry.texts])
    exact .inr ⟨[⟨.magenta, "# Method Start " ++ name⟩], .single (by simp [hl, hn]),
      fun colours => by rw [row_single, entry]⟩
  | methodEnd address name =>
    have hl : Colour.escape ∉ Text.ofString "# Method End " := by decide
    have hn := h name (by simp [Entry.texts])
    exact .inr ⟨[⟨.magenta, "# Method End " ++ name⟩], .single (by simp [hl, hn]),
      fun colours => by rw [row_single, entry]⟩
  | source address fileName line text =>
    have hf := h fileName (by simp [Entry.texts])
    have ht := h text (by simp [Entry.texts])
    have hcode : Colour.escape ∉ Text.ofString "# Code " := by decide
    have hline : Colour.escape ∉ Text.ofString " line " := by decide
    have hopen : Colour.escape ∉ Text.ofString ": \"" := by decide
    have hclose : Colour.escape ∉ Text.ofString "\"" := by decide
    cases hl : number line with
    | error err => exact .inl ⟨err, fun colours => by rw [entry, hl]; rfl⟩
    | ok digits =>
      obtain ⟨-, rfl⟩ := number_eq_ok_iff.mp hl
      have hn := escape_not_mem_toString line
      refine .inr ⟨[⟨.cyan, _⟩], .single ?_, fun colours => by rw [row_single, entry, hl]; rfl⟩
      simp only [List.mem_append, hcode, hf, hline, hn, hopen, ht, hclose, or_self,
        not_false_eq_true]
  | instruction address name operand comment =>
    have hn := h (Text.ofString name) (by simp [Entry.texts])
    have ho := h (Text.ofString operand) (by simp [Entry.texts])
    have hc := h comment (by simp [Entry.texts])
    cases ha : addressText machine width address with
    | error err => exact .inl ⟨err, fun colours => by rw [entry, ha]; rfl⟩
    | ok a =>
      obtain ⟨-, -, rfl⟩ := addressText_eq_ok_iff.mp ha
      obtain ⟨ps, hps, hcom⟩ := exists_commentParts hc
      refine .inr ⟨⟨.yellow, padded width.toNat (toString address)⟩ ::
          ⟨.blue, operandText name operand⟩ :: ps,
        .cons (escape_not_mem_padded _ _) (.cons (escape_not_mem_operandText hn ho) hps),
        fun colours => ?_⟩
      rw [entry, ha, row_cons, row_cons, ← hcom colours, ← List.append_assoc]
      rfl

/-- So the plain and the coloured lines of a plan are two views of the same rows. -/
theorem exists_rows {plan : List Entry} (h : ∀ e ∈ plan, ∀ t ∈ e.texts, Colour.escape ∉ t)
    (last : Option Int) :
    (∃ err, ∀ colours, linesFrom machine width colours last plan = .error err) ∨
      ∃ rows : List (List Part), (∀ ps ∈ rows, Clean ps) ∧
        ∀ colours, linesFrom machine width colours last plan = .ok (rows.map (row colours)) := by
  induction plan generalizing last with
  | nil => exact .inr ⟨[], by simp, fun colours => rfl⟩
  | cons e rest ih =>
    rcases exists_parts machine width (h e List.mem_cons_self) with ⟨err, he⟩ | ⟨ps, hps, he⟩
    · exact .inl ⟨err, fun colours => by simp only [linesFrom, he colours]; rfl⟩
    · rcases ih (fun e he => h e (List.mem_cons_of_mem _ he)) (some e.address) with
        ⟨err, hr⟩ | ⟨rows, hrows, hr⟩
      · exact .inl ⟨err, fun colours => by simp only [linesFrom, he colours, hr colours]; rfl⟩
      · refine .inr ⟨List.replicate (gap last e.address) [] ++ ps :: rows, fun qs hqs => ?_,
          fun colours => ?_⟩
        · rcases List.mem_append.mp hqs with hqs | hqs
          · rw [List.eq_of_mem_replicate hqs]
            exact .nil
          · rcases List.mem_cons.mp hqs with rfl | hqs
            · exact hps
            · exact hrows qs hqs
        · rw [linesFrom_cons last (he colours) (hr colours), List.map_append,
            List.map_replicate, List.map_cons]
          rfl

/-! ## Joined lines -/

theorem escape_not_mem_lineEnd : Colour.escape ∉ Text.ofString "\n" := by decide

theorem erase_flatMap {rows : List (List Part)} (h : ∀ ps ∈ rows, Clean ps) :
    Colour.erase ((rows.map (row true)).flatMap (Text.ofString "\n" ++ ·)) =
      (rows.map (row false)).flatMap (Text.ofString "\n" ++ ·) := by
  induction rows with
  | nil => rw [List.map_nil, List.flatMap_nil, Colour.erase]; rfl
  | cons ps rows ih =>
    simp only [List.map_cons, List.flatMap_cons, List.append_assoc]
    rw [Colour.erase_append_of_not_mem escape_not_mem_lineEnd,
      erase_row_append (h ps List.mem_cons_self),
      ih fun qs hqs => h qs (List.mem_cons_of_mem _ hqs)]

theorem erase_intercalate {rows : List (List Part)} (h : ∀ ps ∈ rows, Clean ps) :
    Colour.erase ((Text.ofString "\n").intercalate (rows.map (row true))) =
      (Text.ofString "\n").intercalate (rows.map (row false)) := by
  cases rows with
  | nil => rw [List.map_nil, List.map_nil, List.intercalate_nil, Colour.erase]
  | cons ps rows =>
    rw [List.map_cons, List.map_cons, intercalate_cons, intercalate_cons,
      erase_row_append (h ps List.mem_cons_self),
      erase_flatMap fun qs hqs => h qs (List.mem_cons_of_mem _ hqs)]

theorem escape_not_mem_intercalate {ls : List Text} (h : ∀ l ∈ ls, Colour.escape ∉ l) :
    Colour.escape ∉ (Text.ofString "\n").intercalate ls := by
  cases ls with
  | nil => exact List.not_mem_nil
  | cons l ls =>
    rw [intercalate_cons]
    intro he
    rcases List.mem_append.mp he with he | he
    · exact h l List.mem_cons_self he
    · obtain ⟨l', hl', he⟩ := List.mem_flatMap.mp he
      rcases List.mem_append.mp he with he | he
      · exact escape_not_mem_lineEnd he
      · exact h l' (List.mem_cons_of_mem _ hl') he

/-- A character other than the line end stands on one of the lines joined. -/
theorem exists_line {x : CodePoint} (hx : x ∉ Text.ofString "\n") {ls : List Text}
    {before after : Text} (he : (Text.ofString "\n").intercalate ls = before ++ x :: after) :
    ∃ (earlier : List Text) (front back : Text) (later : List Text),
      ls = earlier ++ (front ++ x :: back) :: later ∧
      before = earlier.flatMap (· ++ Text.ofString "\n") ++ front ∧
      after = back ++ later.flatMap (Text.ofString "\n" ++ ·) := by
  induction ls generalizing before with
  | nil => simp at he
  | cons l ls ih =>
    rw [intercalate_cons] at he
    rcases List.append_eq_append_iff.mp he with ⟨more, rfl, hr⟩ | ⟨more, rfl, hr⟩
    · -- behind the first line, so on one of the others
      cases ls with
      | nil => simp at hr
      | cons l' ls =>
        rw [List.flatMap_cons, List.append_assoc, ← intercalate_cons] at hr
        obtain ⟨rest, rfl, hrest⟩ := exists_cut_behind hx hr
        obtain ⟨earlier, front, back, later, hls, rfl, rfl⟩ := ih hrest
        exact ⟨l :: earlier, front, back, later, by rw [hls]; rfl,
          by simp only [List.flatMap_cons, List.append_assoc], rfl⟩
    · cases more with
      | nil =>
        cases ls with
        | nil => simp at hr
        | cons l' ls =>
          rw [List.flatMap_cons, List.append_assoc] at hr
          obtain ⟨rest, hn, -⟩ :=
            exists_cut_behind hx (hr.symm.trans (List.nil_append (x :: after)).symm)
          simp [Text.ofString] at hn
      | cons y more =>
        obtain ⟨rfl, rfl⟩ := List.cons.inj hr
        exact ⟨[], before, more, ls, rfl, rfl, rfl⟩

/-- A code between `before` and `after` in the joined lines stands on one line, and behind it on
that line comes the reset, with no other code between. -/
def ResetOnLine (ls : List Text) (before : Text) (colour : Colour) (after : Text) : Prop :=
  ∃ (earlier : List Text) (front inside back : Text) (later : List Text),
    ls = earlier ++ (front ++ colour.code ++ inside ++ Colour.reset ++ back) :: later ∧
    Colour.escape ∉ inside ∧
    before = earlier.flatMap (· ++ Text.ofString "\n") ++ front ∧
    after = inside ++ Colour.reset ++ back ++ later.flatMap (Text.ofString "\n" ++ ·)

theorem resetOnLine_of_rows {rows : List (List Part)} (h : ∀ ps ∈ rows, Clean ps)
    {before after : Text} {colour : Colour}
    (he : (Text.ofString "\n").intercalate (rows.map (row true)) = before ++ colour.code ++ after) :
    ResetOnLine (rows.map (row true)) before colour after := by
  obtain ⟨tail, ht, -⟩ := Colour.exists_tail_of_mem_codes (Colour.code_mem_codes colour)
  rw [List.append_assoc, ht, List.cons_append] at he
  obtain ⟨earlier, front, back, later, hls, rfl, hafter⟩ := exists_line escape_not_mem_lineEnd he
  obtain ⟨ps, hps, hrow⟩ : ∃ ps ∈ rows, row true ps = front ++ Colour.escape :: back :=
    List.mem_map.mp (hls ▸ List.mem_append_right earlier List.mem_cons_self)
  -- the same code read twice: at the cut of the text, and at the beginning of a part
  have hcode : Text.ofString colour.code ++ after =
      (Colour.escape :: back) ++ later.flatMap (Text.ofString "\n" ++ ·) := by
    rw [ht, List.cons_append, List.cons_append, hafter]
  rcases (h ps hps).begins_or_ends hrow with ⟨c, inside, rest, hi, hb⟩ | ⟨rest, hb⟩
  · rw [hb, List.append_assoc] at hcode
    obtain rfl := Colour.code_inj _ _
      (Colour.eq_of_append_eq (Colour.code_mem_codes colour) (Colour.code_mem_codes c) hcode)
    refine ⟨earlier, front, inside, rest, later, ?_, hi, rfl, ?_⟩
    · rw [hls, hb]
      simp only [List.append_assoc]
    · rw [List.append_cancel_left hcode]
      simp only [List.append_assoc]
  · rw [hb, List.append_assoc] at hcode
    exact absurd
      (Colour.eq_of_append_eq (Colour.code_mem_codes colour) Colour.reset_mem_codes hcode)
      (Colour.code_ne_reset colour)

/-- Colours only add codes: what is left when they are deleted is the plain listing, which has no
escape, and every colour is reset on the line where it begins, before any other code. With or
without colours a plan has a listing just when every number in it can be written. -/
theorem listing_erase_colours {plan : List Entry}
    (h : ∀ e ∈ plan, ∀ t ∈ e.texts, Colour.escape ∉ t) :
    (listing machine width true plan).map Colour.erase = listing machine width false plan ∧
    (∀ colours, (∃ text, listing machine width colours plan = .ok text) ↔
      ∀ e ∈ plan, Renderable machine width e) ∧
    (∀ text, listing machine width false plan = .ok text → Colour.escape ∉ text) ∧
    ∀ ls text, lines machine width true plan = .ok ls → listing machine width true plan = .ok text →
      ∀ before colour after, text = before ++ Text.ofString colour.code ++ after →
        ResetOnLine ls before colour after := by
  rcases exists_rows machine width h none with ⟨err, hr⟩ | ⟨rows, hrows, hr⟩
  · -- neither listing is written, and for the same reason
    have hlisting : ∀ colours, listing machine width colours plan = .error err := by
      intro colours
      rw [listing, lines, hr]
      rfl
    refine ⟨by rw [hlisting, hlisting]; rfl, fun colours => exists_listing_iff, fun text ht => ?_,
      fun ls text _ ht => ?_⟩
    · rw [hlisting] at ht
      cases ht
    · rw [hlisting] at ht
      cases ht
  · have hlisting : ∀ colours, listing machine width colours plan =
        .ok ((Text.ofString "\n").intercalate (rows.map (row colours))) := by
      intro colours
      rw [listing, lines, hr]
      rfl
    refine ⟨?_, fun colours => exists_listing_iff, fun text ht => ?_,
      fun ls text hls ht before colour after he => ?_⟩
    · rw [hlisting, hlisting]
      exact congrArg Except.ok (erase_intercalate hrows)
    · rw [hlisting] at ht
      obtain rfl := Except.ok.inj ht
      refine escape_not_mem_intercalate fun l hl => ?_
      obtain ⟨ps, hps, rfl⟩ := List.mem_map.mp hl
      exact escape_not_mem_row (hrows ps hps)
    · rw [lines, hr] at hls
      obtain rfl := Except.ok.inj hls
      rw [hlisting] at ht
      exact resetOnLine_of_rows hrows ((Except.ok.inj ht).trans he)

def colourSample : List Entry :=
  [.methodStart 0 "A.f", .source 0 "[0m.cs" 3 "return 1;", .instruction 0 "PUSHINT8" "01" "1",
    .instruction 2 "RET" "" [], .methodEnd 2 "A.f"]

theorem listing_erase_colours_sample :
    let machine := Machine.ofDepth 1
    (∀ e ∈ colourSample, ∀ t ∈ e.texts, Colour.escape ∉ t) ∧
    (listing machine 1 true colourSample).map Colour.erase = .ok (Text.ofString
      ("# Method Start A.f\n# Code [0m.cs line 3: \"return 1;\"\n0 PUSHINT8 01 # 1\n\n" ++
        "2 RET\n# Method End A.f")) ∧
    ∃ ls text, lines machine 1 true colourSample = .ok ls ∧
      listing machine 1 true colourSample = .ok text ∧
      ∀ before colour after, text = before ++ Text.ofString colour.code ++ after →
        ResetOnLine ls before colour after := by
  intro machine
  have h : ∀ e ∈ colourSample, ∀ t ∈ e.texts, Colour.escape ∉ t := by decide
  obtain ⟨herase, -, -, hreset⟩ := listing_erase_colours machine 1 h
  obtain ⟨ls, hls⟩ : ∃ ls, lines machine 1 true colourSample = .ok ls := ⟨_, rfl⟩
  have ht : listing machine 1 true colourSample = .ok ((Text.ofString "\n").intercalate ls) := by
    rw [listing, hls]
    rfl
  exact ⟨h, herase.trans rfl, ls, _, hls, ht, hreset ls _ hls ht⟩

end Render

end NeoListing

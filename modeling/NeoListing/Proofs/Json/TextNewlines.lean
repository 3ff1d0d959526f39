import NeoListing.Json.Token
import NeoListing.Proofs.Text.Newlines

/-! # Texts inside quotes with line endings unified

A line ending inside quotes is a fault, however it is written: as a control character, behind a
backslash, or in place of a digit. So a text without a fault has no line ending, and is read the
same. Only the place of a fault differs, and `unplaced` leaves it out.
-/

namespace NeoListing.Json
open Text

def Fault.unplaced : Fault → Fault
  | .malformed what _ => .malformed what 0
  | fault => fault

section FourDigits

variable {cs : List Char}

theorem fourDigits?_take (cs : List Char) : fourDigits? (cs.take 4) = fourDigits? cs := by
  rcases cs with _ | ⟨a, _ | ⟨b, _ | ⟨c, _ | ⟨d, rest⟩⟩⟩⟩ <;> rfl

theorem fourDigits?_of_mem {c : Char} (hm : c ∈ cs.take 4) (hc : Hex.digit? c = none) :
    fourDigits? cs = none := by
  rcases cs with _ | ⟨x, _ | ⟨y, _ | ⟨z, _ | ⟨w, rest⟩⟩⟩⟩
  iterate 4 rfl
  simp only [List.take_succ_cons, List.take_zero, List.mem_cons, List.not_mem_nil, or_false] at hm
  rcases hm with rfl | rfl | rfl | rfl <;> simp [fourDigits?, hc]

theorem fourDigits?_unifyNewlines (cs : List Char) :
    fourDigits? (unifyNewlines cs) = fourDigits? cs := by
  by_cases h : '\r' ∈ cs.take 4
  · rw [fourDigits?_of_mem (mem_take_unifyNewlines h) (by decide), fourDigits?_of_mem h (by decide)]
  · rw [← fourDigits?_take, take_unifyNewlines h, fourDigits?_take]

theorem not_mem_take_four {n : Nat} (h : fourDigits? cs = some n) : '\r' ∉ cs.take 4 := by
  intro hm
  rw [fourDigits?_of_mem hm (by decide)] at h
  cases h

theorem four_lt_length_unifyNewlines {n : Nat} (h : fourDigits? cs = some n) :
    4 < (unifyNewlines cs).length ↔ 4 < cs.length := by
  have hd : (unifyNewlines cs).drop 4 = unifyNewlines (cs.drop 4) :=
    drop_unifyNewlines (not_mem_take_four h)
  have hle := length_unifyNewlines_le cs
  constructor
  · intro hl
    omega
  · intro hl
    have hne : cs.drop 4 ≠ [] := mt List.drop_eq_nil_iff.mp (Nat.not_le.mpr hl)
    have hne' := unifyNewlines_ne_nil hne
    rw [← hd] at hne'
    exact Nat.not_le.mp (mt List.drop_eq_nil_iff.mpr hne')

end FourDigits

theorem exists_escape_unifyNewlines (cs : List Char) :
    (∃ more, unifyNewlines cs = '\\' :: 'u' :: more) ↔ ∃ more, cs = '\\' :: 'u' :: more := by
  have hp : ∀ ds : List Char,
      ['\\', 'u'].isPrefixOf ds = true ↔ ∃ more, ds = '\\' :: 'u' :: more := by
    intro ds
    rw [List.isPrefixOf_iff_prefix]
    exact exists_congr fun more => eq_comm
  rw [← hp, ← hp, isPrefixOf_unifyNewlines (by decide) (by decide)]

section Numbered

variable {cs more : List Char} {left high low : Nat}

theorem numberedEscape_of_no_room (h : left ≤ 5) :
    numberedEscape left cs = .error (.malformed .badNumberedEscape left) := by
  rw [numberedEscape, if_pos h]

theorem numberedEscape_of_none (h : fourDigits? cs = none) :
    numberedEscape left cs = .error (.malformed .badNumberedEscape left) := by
  rw [numberedEscape, h]
  split <;> rfl

/-- A code point by itself, where no second escape is looked at. -/
theorem numberedEscape_single (hl : 5 < left) (hf : fourDigits? cs = some high)
    (hs : ¬(isHighHalf high = true ∧ 11 < left ∧ ∃ more, cs.drop 4 = '\\' :: 'u' :: more)) :
    numberedEscape left cs = .ok (unitPoint high, 4) := by
  rw [numberedEscape, if_neg (Nat.not_le.mpr hl), hf]
  simp only
  split
  next more hr hd =>
    rw [Bool.and_eq_true, decide_eq_true_eq] at hr
    exact absurd ⟨hr.1, hr.2, more, hd⟩ hs
  next => rfl

theorem numberedEscape_of_second_none (hl : 11 < left) (hf : fourDigits? cs = some high)
    (hh : isHighHalf high = true) (hd : cs.drop 4 = '\\' :: 'u' :: more)
    (hm : fourDigits? more = none) :
    numberedEscape left cs = .error (.malformed .badNumberedEscape (left - 6)) := by
  have hroom : ¬left ≤ 5 := by omega
  simp only [numberedEscape, if_neg hroom, hf, hh, hl, decide_true, Bool.and_self, hd, hm]

theorem numberedEscape_pair (hl : 11 < left) (hf : fourDigits? cs = some high)
    (hh : isHighHalf high = true) (hd : cs.drop 4 = '\\' :: 'u' :: more)
    (hm : fourDigits? more = some low) :
    numberedEscape left cs =
      if isLowHalf low then
        .ok (.scalar (Char.ofNat (0x10000 + (high - 0xD800) * 0x400 + (low - 0xDC00))), 10)
      else .ok (unitPoint high, 4) := by
  have hroom : ¬left ≤ 5 := by omega
  simp only [numberedEscape, if_neg hroom, hf, hh, hl, decide_true, Bool.and_self, hd, hm]

end Numbered

/-- The digits of an escape are missing, or those of another that follows at once. The room behind
two escapes decides whether they are read together, and unified line endings can leave less of it.
That matters only here, and here the text has a fault in any case. -/
def LacksDigits (cs : List Char) : Prop :=
  fourDigits? cs = none ∨ ∃ more, cs.drop 4 = '\\' :: 'u' :: more ∧ fourDigits? more = none

theorem LacksDigits.unifyNewlines {cs : List Char} (h : LacksDigits cs) :
    LacksDigits (unifyNewlines cs) := by
  cases hf : fourDigits? cs with
  | none => exact .inl ((fourDigits?_unifyNewlines cs).trans hf)
  | some n =>
    rcases h with h | ⟨more, hd, hm⟩
    · rw [hf] at h
      cases h
    · refine .inr ⟨Text.unifyNewlines more, ?_, (fourDigits?_unifyNewlines more).trans hm⟩
      rw [drop_unifyNewlines (not_mem_take_four hf), hd, unifyNewlines_cons (by decide),
        unifyNewlines_cons (by decide)]

section Body

variable {start left : Nat} {read : Text} {c : Char} {rest : List Char}

theorem textBody_nil :
    textBody start left read [] = .error (.malformed .unterminatedText start) := by
  rw [textBody]

theorem textBody_quote : textBody start left read ('"' :: rest) = .ok (read.reverse, left - 1) := by
  rw [textBody, if_pos rfl]

theorem textBody_escape_error {fault : Fault} (h : escape start left rest = .error fault) :
    textBody start left read ('\\' :: rest) = .error fault := by
  rw [textBody, if_neg (by decide), if_pos rfl, h]

theorem textBody_escape_ok {meant : CodePoint} {n : Nat}
    (h : escape start left rest = .ok (meant, n)) :
    textBody start left read ('\\' :: rest) =
      textBody start (left - 1 - n) (meant :: read) (rest.drop n) := by
  rw [textBody, if_neg (by decide), if_pos rfl, h]

theorem textBody_control (h : c.toNat < 0x20) :
    textBody start left read (c :: rest) = .error (.malformed .controlCharacter left) := by
  have hq : c ≠ '"' := by
    rintro rfl
    revert h
    decide
  have hb : c ≠ '\\' := by
    rintro rfl
    revert h
    decide
  rw [textBody, if_neg hq, if_neg hb, if_pos h]

theorem textBody_plain (hq : c ≠ '"') (hb : c ≠ '\\') (h : ¬c.toNat < 0x20) :
    textBody start left read (c :: rest) = textBody start (left - 1) (.scalar c :: read) rest := by
  rw [textBody, if_neg hq, if_neg hb, if_neg h]

end Body

/-- An escape that lacks digits makes a text faulty, even if they are those of a second escape
that is not looked at together with it. -/
theorem textBody_of_lacksDigits {cs : List Char} (h : LacksDigits cs) (start left : Nat)
    (read : Text) :
    ∃ place, textBody start left read ('\\' :: 'u' :: cs) =
      .error (.malformed .badNumberedEscape place) := by
  have hbad : ∀ {cs left place}, numberedEscape (left - 1) cs =
      .error (.malformed .badNumberedEscape place) → ∀ read, ∃ place,
        textBody start left read ('\\' :: 'u' :: cs) =
          .error (.malformed .badNumberedEscape place) := by
    intro cs left place hn read
    refine ⟨place, textBody_escape_error ?_⟩
    rw [escape, hn]
    rfl
  cases hf : fourDigits? cs with
  | none => exact hbad (numberedEscape_of_none hf) read
  | some high =>
    rcases h with h | ⟨more, hd, hm⟩
    · rw [hf] at h
      cases h
    · by_cases hroom : left - 1 ≤ 5
      · exact hbad (numberedEscape_of_no_room hroom) read
      · by_cases hs : isHighHalf high = true ∧ 11 < left - 1
        · exact hbad (numberedEscape_of_second_none hs.2 hf hs.1 hd hm) read
        · -- the second escape is read by itself then, and fails
          have hn : numberedEscape (left - 1) cs = .ok (unitPoint high, 4) :=
            numberedEscape_single (Nat.not_le.mp hroom) hf fun hp => hs ⟨hp.1, hp.2.1⟩
          have he : escape start left ('u' :: cs) = .ok (unitPoint high, 5) := by
            rw [escape, hn]
            rfl
          rw [textBody_escape_ok he, List.drop_succ_cons, hd]
          exact hbad (numberedEscape_of_none hm) _

/-- Two readings of what follows a backslash, in `cs` and with the line endings of `cs` unified:
they have the same fault, whatever its place, or the same code point from the same characters. -/
def SameEscape (cs : List Char) (x y : Except Fault (CodePoint × Nat)) : Prop :=
  (∃ fault fault', x = .error fault ∧ y = .error fault' ∧ fault.unplaced = fault'.unplaced) ∨
    ∃ meant n, x = .ok (meant, n) ∧ y = .ok (meant, n) ∧ '\r' ∉ cs.take n

section Escapes

variable {cs more : List Char} {high low : Nat} (hf : fourDigits? cs = some high)
include hf

theorem sameEscape_single (hl : 4 < cs.length)
    (hs : ¬(isHighHalf high = true ∧ 11 < cs.length + 1 ∧ ∃ more, cs.drop 4 = '\\' :: 'u' :: more))
    (hs' : ¬(isHighHalf high = true ∧ 11 < (unifyNewlines cs).length + 1 ∧
      ∃ more, (unifyNewlines cs).drop 4 = '\\' :: 'u' :: more)) :
    SameEscape cs (numberedEscape (cs.length + 1) cs)
      (numberedEscape ((unifyNewlines cs).length + 1) (unifyNewlines cs)) := by
  have hf' := (fourDigits?_unifyNewlines cs).trans hf
  have hl' := (four_lt_length_unifyNewlines hf).mpr hl
  have hn := numberedEscape_single (Nat.succ_lt_succ hl) hf hs
  have hn' := numberedEscape_single (Nat.succ_lt_succ hl') hf' hs'
  exact .inr ⟨_, _, hn, hn', not_mem_take_four hf⟩

theorem sameEscape_pair (hh : isHighHalf high = true) (hd : cs.drop 4 = '\\' :: 'u' :: more)
    (hm : fourDigits? more = some low) :
    SameEscape cs (numberedEscape (cs.length + 1) cs)
      (numberedEscape ((unifyNewlines cs).length + 1) (unifyNewlines cs)) := by
  have hfour := not_mem_take_four hf
  have hd' : (unifyNewlines cs).drop 4 = '\\' :: 'u' :: unifyNewlines more := by
    rw [drop_unifyNewlines hfour, hd, unifyNewlines_cons (by decide),
      unifyNewlines_cons (by decide)]
  have hc := congrArg List.length hd
  have hc' := congrArg List.length hd'
  simp only [List.length_drop, List.length_cons] at hc hc'
  -- the closing quote has room in both or in none
  have hroom := four_lt_length_unifyNewlines hm
  by_cases hpair : 11 < cs.length + 1
  · have hpair' : 11 < (unifyNewlines cs).length + 1 := by omega
    have hf' := (fourDigits?_unifyNewlines cs).trans hf
    have hm' := (fourDigits?_unifyNewlines more).trans hm
    rw [numberedEscape_pair hpair hf hh hd hm, numberedEscape_pair hpair' hf' hh hd' hm']
    have hten : '\r' ∉ cs.take (4 + 6) := by
      refine not_mem_take_add hfour ?_
      rw [hd]
      simpa using not_mem_take_four hm
    split
    · exact .inr ⟨_, _, rfl, rfl, hten⟩
    · exact .inr ⟨_, _, rfl, rfl, hfour⟩
  · have hpair' : ¬11 < (unifyNewlines cs).length + 1 := by omega
    exact sameEscape_single hf (by omega) (fun hp => hpair hp.2.1) fun hp => hpair' hp.2.1

end Escapes

theorem numberedEscape_unifyNewlines {cs : List Char} (h : ¬LacksDigits cs) :
    SameEscape cs (numberedEscape (cs.length + 1) cs)
      (numberedEscape ((unifyNewlines cs).length + 1) (unifyNewlines cs)) := by
  obtain ⟨high, hf⟩ : ∃ high, fourDigits? cs = some high :=
    Option.ne_none_iff_exists'.mp fun hn => h (.inl hn)
  have hroom := four_lt_length_unifyNewlines hf
  by_cases hl : 4 < cs.length
  · by_cases hp : isHighHalf high = true ∧ ∃ more, cs.drop 4 = '\\' :: 'u' :: more
    · obtain ⟨hh, more, hd⟩ := hp
      obtain ⟨low, hm⟩ : ∃ low, fourDigits? more = some low :=
        Option.ne_none_iff_exists'.mp fun hn => h (.inr ⟨more, hd, hn⟩)
      exact sameEscape_pair hf hh hd hm
    · have hp' : ¬(isHighHalf high = true ∧
          ∃ more, (unifyNewlines cs).drop 4 = '\\' :: 'u' :: more) := by
        rwa [drop_unifyNewlines (not_mem_take_four hf), exists_escape_unifyNewlines]
      exact sameEscape_single hf hl (fun hs => hp ⟨hs.1, hs.2.2⟩) fun hs => hp' ⟨hs.1, hs.2.2⟩
  · have hl' := mt hroom.mp hl
    exact .inl ⟨_, _, numberedEscape_of_no_room (by omega), numberedEscape_of_no_room (by omega),
      rfl⟩

/-- Two readings of a text, in the same way: they have the same fault, whatever its place, or the
same text, and behind it the same characters but for their line endings. -/
def SameText (cs : List Char) (x y : Except Fault (Text × Nat)) : Prop :=
  (∃ fault fault', x = .error fault ∧ y = .error fault' ∧ fault.unplaced = fault'.unplaced) ∨
    ∃ s used rest, cs = used ++ rest ∧ '\r' ∉ used ∧ x = .ok (s, rest.length) ∧
      y = .ok (s, (unifyNewlines rest).length)

theorem SameText.behind {cs used : List Char} {x y : Except Fault (Text × Nat)}
    (h : SameText cs x y) (hu : '\r' ∉ used) : SameText (used ++ cs) x y := by
  rcases h with h | ⟨s, more, rest, rfl, hm, hx, hy⟩
  · exact .inl h
  · have hs : used ++ (more ++ rest) = used ++ more ++ rest := (List.append_assoc _ _ _).symm
    exact .inr ⟨s, used ++ more, rest, hs, List.not_mem_append hu hm, hx, hy⟩

theorem sameText_of_lacksDigits {cs : List Char} (h : LacksDigits cs)
    (start start' left left' : Nat) (read : Text) :
    SameText ('\\' :: 'u' :: cs) (textBody start left read ('\\' :: 'u' :: cs))
      (textBody start' left' read (unifyNewlines ('\\' :: 'u' :: cs))) := by
  obtain ⟨place, hb⟩ := textBody_of_lacksDigits h start left read
  obtain ⟨place', hb'⟩ := textBody_of_lacksDigits h.unifyNewlines start' left' read
  rw [unifyNewlines_cons (by decide), unifyNewlines_cons (by decide)]
  exact .inl ⟨_, _, hb, hb', rfl⟩

section Letter

variable {start left : Nat} {c : Char} {rest : List Char}

theorem escape_letter (hu : c ≠ 'u') {meant : Char} (h : letterEscapes.lookup c = some meant) :
    escape start left (c :: rest) = .ok (.scalar meant, 1) := by
  rw [escape]
  · rw [h]
  · exact hu

theorem escape_unknown (hu : c ≠ 'u') (h : letterEscapes.lookup c = none) :
    escape start left (c :: rest) = .error (.malformed .badEscape left) := by
  rw [escape]
  · rw [h]
  · exact hu

end Letter

theorem SameEscape.numbered {cs : List Char} {x y : Except Fault (CodePoint × Nat)}
    (h : SameEscape cs x y) :
    SameEscape ('u' :: cs) (x.map fun r => (r.1, r.2 + 1)) (y.map fun r => (r.1, r.2 + 1)) := by
  rcases h with ⟨fault, fault', rfl, rfl, hu⟩ | ⟨meant, n, rfl, rfl, hm⟩
  · exact .inl ⟨fault, fault', rfl, rfl, hu⟩
  · refine .inr ⟨meant, n + 1, rfl, rfl, ?_⟩
    rw [List.take_succ_cons, List.mem_cons, not_or]
    exact ⟨by decide, hm⟩

/-- What follows a backslash is read alike, unless digits are missing. -/
theorem escape_unifyNewlines (start start' : Nat) {rest : List Char}
    (h : ∀ cs, rest = 'u' :: cs → ¬LacksDigits cs) :
    SameEscape rest (escape start (rest.length + 1) rest)
      (escape start' ((unifyNewlines rest).length + 1) (unifyNewlines rest)) := by
  cases rest with
  | nil =>
    rw [unifyNewlines_nil]
    exact .inl ⟨_, _, rfl, rfl, rfl⟩
  | cons c cs =>
    by_cases hu : c = 'u'
    · subst hu
      rw [unifyNewlines_cons (by decide), escape, escape]
      exact (numberedEscape_unifyNewlines (h cs rfl)).numbered
    by_cases hr : c = '\r'
    · obtain ⟨more, hm, -⟩ := unifyNewlines_return cs
      rw [hr, hm, escape_unknown (by decide) (by decide), escape_unknown (by decide) (by decide)]
      exact .inl ⟨_, _, rfl, rfl, rfl⟩
    · rw [unifyNewlines_cons hr]
      cases hc : letterEscapes.lookup c with
      | none => exact .inl ⟨_, _, escape_unknown hu hc, escape_unknown hu hc, rfl⟩
      | some meant =>
        exact .inr ⟨_, 1, escape_letter hu hc, escape_letter hu hc, by simp [Ne.symm hr]⟩

/-- Up to its closing quote a text is read alike. -/
theorem textBody_unifyNewlines (start start' left : Nat) (read : Text) (cs : List Char)
    (hl : left = cs.length) :
    SameText cs (textBody start left read cs)
      (textBody start' (unifyNewlines cs).length read (unifyNewlines cs)) := by
  fun_induction textBody start left read cs with
  | case1 left read =>
    rw [unifyNewlines_nil, textBody_nil]
    exact .inl ⟨_, _, rfl, rfl, rfl⟩
  | case2 left read rest =>
    rw [unifyNewlines_cons (by decide), textBody_quote]
    exact .inr ⟨_, ['"'], rest, rfl, by decide, by rw [hl]; rfl, rfl⟩
  | case3 left read rest fault he hq =>
    by_cases hlack : ∃ cs, rest = 'u' :: cs ∧ LacksDigits cs
    · obtain ⟨cs, rfl, hlack⟩ := hlack
      rw [← textBody_escape_error he]
      exact sameText_of_lacksDigits hlack _ _ _ _ _
    · rw [hl] at he
      rcases escape_unifyNewlines start start' (fun cs hc hd => hlack ⟨cs, hc, hd⟩) with
        ⟨f, f', hf, hf', hu⟩ | ⟨meant, n, hok, -, -⟩
      · rw [List.length_cons, hf] at he
        cases he
        rw [unifyNewlines_cons (by decide)]
        exact .inl ⟨_, _, rfl, textBody_escape_error hf', hu⟩
      · rw [List.length_cons, hok] at he
        cases he
  | case4 left read rest meant n he hq ih =>
    by_cases hlack : ∃ cs, rest = 'u' :: cs ∧ LacksDigits cs
    · -- the fault is then in the escape behind this one
      obtain ⟨cs, rfl, hlack⟩ := hlack
      rw [← textBody_escape_ok he]
      exact sameText_of_lacksDigits hlack _ _ _ _ _
    · have he' := he
      rw [hl, List.length_cons] at he'
      rcases escape_unifyNewlines start start' (fun cs hc hd => hlack ⟨cs, hc, hd⟩) with
        ⟨f, f', hf, -, -⟩ | ⟨meant', n', hok, hok', hm⟩
      · rw [hf] at he'
        cases he'
      · rw [hok] at he'
        cases he'
        have hdrop := drop_unifyNewlines hm
        have hrest := ih (by rw [hl, List.length_cons, List.length_drop, Nat.add_sub_cancel])
        have hb : '\r' ∉ '\\' :: rest.take n := by
          rw [List.mem_cons, not_or]
          exact ⟨by decide, hm⟩
        have hs := hrest.behind hb
        rw [List.cons_append, List.take_append_drop] at hs
        rw [unifyNewlines_cons (by decide), List.length_cons, textBody_escape_ok hok', hdrop]
        have hleft : (unifyNewlines rest).length + 1 - 1 - n =
            (unifyNewlines (rest.drop n)).length := by
          rw [← hdrop, List.length_drop, Nat.add_sub_cancel]
        rw [hleft]
        exact hs
  | case5 left read c rest hq hb hc =>
    by_cases hr : c = '\r'
    · obtain ⟨more, hm, -⟩ := unifyNewlines_return rest
      rw [hr, hm]
      exact .inl ⟨_, _, rfl, textBody_control (by decide), rfl⟩
    · rw [unifyNewlines_cons hr]
      exact .inl ⟨_, _, rfl, textBody_control hc, rfl⟩
  | case6 left read c rest hq hb hc ih =>
    have hr : c ≠ '\r' := by
      rintro rfl
      exact hc (by decide)
    have hrest := ih (by rw [hl]; rfl)
    rw [unifyNewlines_cons hr, textBody_plain hq hb hc]
    have hu : '\r' ∉ [c] := by simpa using Ne.symm hr
    exact hrest.behind hu

end NeoListing.Json

import Mathlib
import NeoListing.Debug.Info
import NeoListing.Proofs.FirstFault
import NeoListing.Proofs.Text.Characters

/-! # Patterns of numbers and marks

A pattern describes texts made of numbers with marks between them. Where no mark is a digit, its
numbers can be read in one way only, and the longest row of digits is always the right one.
-/

namespace NeoListing.DebugInfo
open Outcome

def IsNumber (cs : List Char) : Prop := cs ≠ [] ∧ ∀ c ∈ cs, Text.isDigit c = true

namespace Numeral

def text (n : Numeral) : List Char := if n.negative then '-' :: n.digits else n.digits

def int (n : Numeral) : Int := Text.applySign n.negative (Text.digitsValue n.digits)

end Numeral

/-- The texts that a pattern describes, with their numbers. -/
inductive Matches : List Piece → List Numeral → List Char → Prop where
  | done : Matches [] [] []
  | mark {more ns cs} (c : Char) (h : Matches more ns cs) :
      Matches (.mark c :: more) ns (c :: cs)
  | natural {digits more ns cs} (hd : IsNumber digits) (h : Matches more ns cs) :
      Matches (.natural :: more) (⟨false, digits⟩ :: ns) (digits ++ cs)
  | integer {n more ns cs} (hd : IsNumber n.digits) (h : Matches more ns cs) :
      Matches (.integer :: more) (n :: ns) (n.text ++ cs)

section Inversion

variable {more : List Piece} {ns : List Numeral} {cs : List Char}

theorem matches_nil_iff : Matches [] ns cs ↔ ns = [] ∧ cs = [] := by
  constructor
  · rintro ⟨⟩
    exact ⟨rfl, rfl⟩
  · rintro ⟨rfl, rfl⟩
    exact .done

theorem matches_mark_iff {c : Char} :
    Matches (.mark c :: more) ns cs ↔ ∃ rest, cs = c :: rest ∧ Matches more ns rest := by
  constructor
  · rintro (_ | ⟨_, h⟩)
    exact ⟨_, rfl, h⟩
  · rintro ⟨rest, rfl, h⟩
    exact .mark c h

theorem matches_natural_iff :
    Matches (.natural :: more) ns cs ↔
      ∃ digits ms rest, IsNumber digits ∧ ns = ⟨false, digits⟩ :: ms ∧ cs = digits ++ rest ∧
        Matches more ms rest := by
  constructor
  · rintro (_ | _ | ⟨hd, h⟩)
    exact ⟨_, _, _, hd, rfl, rfl, h⟩
  · rintro ⟨digits, ms, rest, hd, rfl, rfl, h⟩
    exact .natural hd h

theorem matches_integer_iff :
    Matches (.integer :: more) ns cs ↔
      ∃ n ms rest, IsNumber n.digits ∧ ns = n :: ms ∧ cs = n.text ++ rest ∧
        Matches more ms rest := by
  constructor
  · rintro (_ | _ | _ | ⟨hd, h⟩)
    exact ⟨_, _, _, hd, rfl, rfl, h⟩
  · rintro ⟨n, ms, rest, hd, rfl, rfl, h⟩
    exact .integer hd h

end Inversion

def IsEnd (tail : List Char) : Prop := tail = [] ∨ tail = ['\n']

def startsApart : List Piece → Bool
  | [] => true
  | .mark c :: _ => !Text.isDigit c
  | _ => false

def separated : List Piece → Bool
  | [] => true
  | .mark _ :: more => separated more
  | _ :: more => startsApart more && separated more

def HeadApart (cs : List Char) : Prop := ∀ c ∈ cs.head?, Text.isDigit c = false

theorem headApart_of_isEnd {tail : List Char} (h : IsEnd tail) : HeadApart tail := by
  intro c hc
  rcases h with rfl | rfl
  · cases hc
  · cases hc
    decide

theorem headApart_of_matches {pattern : List Piece} {ns : List Numeral} {cs tail : List Char}
    (hp : startsApart pattern = true) (h : Matches pattern ns cs) (ht : IsEnd tail) :
    HeadApart (cs ++ tail) := by
  cases h with
  | done => exact headApart_of_isEnd ht
  | mark c h =>
    intro d hd
    cases hd
    simpa [startsApart] using hp
  | natural hd h => cases hp
  | integer hd h => cases hp

theorem readDigits_eq_some_iff {negative : Bool} {cs rest : List Char} {n : Numeral} :
    readDigits negative cs = some (n, rest) ↔
      n.negative = negative ∧ IsNumber n.digits ∧ cs = n.digits ++ rest ∧ HeadApart rest := by
  constructor
  · intro h
    simp only [readDigits] at h
    split at h
    next => cases h
    next hne =>
      cases h
      refine ⟨rfl, ⟨by simpa using hne, fun c hc => List.mem_takeWhile_imp hc⟩,
        List.takeWhile_append_dropWhile.symm, ?_⟩
      intro c hc
      have hh := List.head?_dropWhile_not Text.isDigit cs
      rw [hc] at hh
      simpa using hh
  · rintro ⟨rfl, ⟨hne, hd⟩, rfl, hr⟩
    have hrest : rest.takeWhile Text.isDigit = [] ∧ rest.dropWhile Text.isDigit = rest := by
      cases rest with
      | nil => exact ⟨rfl, rfl⟩
      | cons c rest =>
        have hc := hr c rfl
        simp [hc]
    simp [readDigits, List.takeWhile_append_of_pos hd, List.dropWhile_append_of_pos hd, hrest, hne]

theorem isNegative_iff {cs : List Char} : Text.isNegative cs = true ↔ ∃ rest, cs = '-' :: rest := by
  constructor
  · intro h
    unfold Text.isNegative at h
    split at h
    next rest => exact ⟨rest, rfl⟩
    next => cases h
  · rintro ⟨rest, rfl⟩
    rfl

/-- A number shows its sign, since no digit is a minus. -/
theorem isNegative_text {n : Numeral} (hd : IsNumber n.digits) (rest : List Char) :
    Text.isNegative (n.text ++ rest) = n.negative := by
  obtain ⟨negative, digits⟩ := n
  cases negative with
  | true => rfl
  | false =>
    cases digits with
    | nil => exact absurd rfl hd.1
    | cons c digits =>
      rw [Bool.eq_false_iff, ne_eq, isNegative_iff]
      rintro ⟨body, hb⟩
      have hc : c = '-' := (List.cons.inj hb).1
      have hdigit := hd.2 c List.mem_cons_self
      rw [hc] at hdigit
      revert hdigit
      decide

theorem matches_of_matchPieces {pattern : List Piece} {cs : List Char} {ns : List Numeral}
    (h : matchPieces pattern cs = some ns) :
    ∃ core tail, cs = core ++ tail ∧ Matches pattern ns core ∧ IsEnd tail := by
  induction pattern generalizing cs ns with
  | nil =>
    simp only [matchPieces] at h
    split at h
    next hc =>
      cases h
      refine ⟨[], cs, rfl, .done, ?_⟩
      simpa [IsEnd] using hc
    next => cases h
  | cons piece more ih =>
    cases piece with
    | mark c =>
      cases cs with
      | nil => cases h
      | cons d rest =>
        simp only [matchPieces] at h
        split at h
        next hd =>
          obtain ⟨core, tail, rfl, hm, ht⟩ := ih h
          exact ⟨d :: core, tail, rfl, hd ▸ .mark d hm, ht⟩
        next => cases h
    | natural =>
      simp only [matchPieces, Option.bind_eq_bind, Option.bind_eq_some_iff] at h
      obtain ⟨⟨n, rest⟩, hn, ms, hms, hr⟩ := h
      cases hr
      obtain ⟨hneg, hd, rfl, -⟩ := readDigits_eq_some_iff.mp hn
      obtain ⟨core, tail, rfl, hm, ht⟩ := ih hms
      obtain ⟨negative, digits⟩ := n
      cases hneg
      exact ⟨digits ++ core, tail, (List.append_assoc _ _ _).symm, .natural hd hm, ht⟩
    | integer =>
      simp only [matchPieces, Option.bind_eq_bind, Option.bind_eq_some_iff] at h
      obtain ⟨⟨n, rest⟩, hn, ms, hms, hr⟩ := h
      cases hr
      obtain ⟨hneg, hd, hcs, -⟩ := readDigits_eq_some_iff.mp hn
      obtain ⟨core, tail, rfl, hm, ht⟩ := ih hms
      refine ⟨n.text ++ core, tail, ?_, .integer hd hm, ht⟩
      cases hs : Text.isNegative cs with
      | true =>
        obtain ⟨body, rfl⟩ := isNegative_iff.mp hs
        rw [hs] at hneg hcs
        simp only [if_true, List.drop_one, List.tail_cons] at hcs
        simp [Numeral.text, hneg, hcs]
      | false =>
        rw [hs] at hneg hcs
        simp only [Bool.false_eq_true, if_false] at hcs
        simp [Numeral.text, hneg, hcs]

theorem matchPieces_of_matches {pattern : List Piece} {core tail : List Char} {ns : List Numeral}
    (hp : separated pattern = true) (hm : Matches pattern ns core) (ht : IsEnd tail) :
    matchPieces pattern (core ++ tail) = some ns := by
  -- What follows a number starts with no digit, so the longest row of digits ends where it does.
  induction hm with
  | done => rcases ht with rfl | rfl <;> rfl
  | mark c h ih =>
    simp only [List.cons_append, matchPieces, if_true]
    exact ih hp
  | @natural digits more ns cs hd h ih =>
    simp only [separated, Bool.and_eq_true] at hp
    have hr : readDigits false (digits ++ (cs ++ tail)) = some (⟨false, digits⟩, cs ++ tail) :=
      readDigits_eq_some_iff.mpr ⟨rfl, hd, rfl, headApart_of_matches hp.1 h ht⟩
    simp [matchPieces, List.append_assoc, hr, ih hp.2]
  | @integer n more ns cs hd h ih =>
    simp only [separated, Bool.and_eq_true] at hp
    have hr : readDigits n.negative (n.digits ++ (cs ++ tail)) = some (n, cs ++ tail) :=
      readDigits_eq_some_iff.mpr ⟨rfl, hd, rfl, headApart_of_matches hp.1 h ht⟩
    have hs : Text.isNegative (n.text ++ (cs ++ tail)) = n.negative := isNegative_text hd _
    have hbody : (if n.negative then (n.text ++ (cs ++ tail)).drop 1 else n.text ++ (cs ++ tail)) =
        n.digits ++ (cs ++ tail) := by
      cases hn : n.negative <;> simp [Numeral.text, hn]
    simp only [matchPieces, List.append_assoc, hs, hbody, hr, Option.bind_eq_bind,
      Option.bind_some, ih hp.2]
    rfl

/-- Matching finds the numbers of the texts that the pattern describes, and of no others. -/
theorem matchPieces_eq_some_iff {pattern : List Piece} {cs : List Char} {ns : List Numeral}
    (hp : separated pattern = true) :
    matchPieces pattern cs = some ns ↔
      ∃ core tail, cs = core ++ tail ∧ Matches pattern ns core ∧ IsEnd tail := by
  constructor
  · exact matches_of_matchPieces
  · rintro ⟨core, tail, rfl, hm, ht⟩
    exact matchPieces_of_matches hp hm ht

/-! ## Their values -/

def Error.isNumber : Error → Bool
  | .invalidNumber _ => true
  | _ => false

abbrev FailsByNumber {α : Type} (x : Except Error α) : Prop :=
  FailsWith (fun e => e.isNumber = true) x

section Values

variable {n : Numeral} {ns : List Numeral}

theorem value_of_short (h : n.digits.length ≤ 4300) : n.value = .ok n.int := by
  have hb : Text.boundedDigits n.digits = .ok (Text.digitsValue n.digits) :=
    if_neg (Nat.not_lt.mpr h)
  rw [Numeral.value, hb]
  rfl

theorem value_of_long (h : 4300 < n.digits.length) :
    n.value = .error (.invalidNumber (.tooManyDigits n.digits.length)) := by
  have hb : Text.boundedDigits n.digits = .error (.tooManyDigits n.digits.length) := if_pos h
  rw [Numeral.value, hb]

theorem values_eq_ok_iff {xs : List Int} :
    values ns = .ok xs ↔ (∀ n ∈ ns, n.digits.length ≤ 4300) ∧ xs = ns.map Numeral.int := by
  induction ns generalizing xs with
  | nil => simp [values, eq_comm]
  | cons n ns ih =>
    simp only [values, bind_eq_ok_iff, ih, List.forall_mem_cons, List.map_cons]
    by_cases h : n.digits.length ≤ 4300
    · rw [value_of_short h]
      constructor
      · rintro ⟨x, hx, ys, ⟨hs, rfl⟩, hxs⟩
        cases hx
        cases hxs
        exact ⟨⟨h, hs⟩, rfl⟩
      · rintro ⟨⟨-, hs⟩, rfl⟩
        exact ⟨_, rfl, _, ⟨hs, rfl⟩, rfl⟩
    · rw [value_of_long (Nat.not_le.mp h)]
      simp [h]

theorem failsByNumber_values : FailsByNumber (values ns) ↔ ∃ n ∈ ns, 4300 < n.digits.length := by
  induction ns with
  | nil => simp [values]
  | cons n ns ih =>
    rw [List.exists_mem_cons_iff, ← ih, values]
    refine failsWith_bind.trans ?_
    by_cases h : n.digits.length ≤ 4300
    · rw [value_of_short h]
      have hn : ¬4300 < n.digits.length := Nat.not_lt.mpr h
      simp [hn, failsWith_bind, pure, Except.pure]
    · have hl : 4300 < n.digits.length := Nat.not_le.mp h
      simp [value_of_long hl, hl, Error.isNumber]

end Values

/-- A text of which a pattern describes all but the end. -/
def HasPattern (pattern : List Piece) (ns : List Numeral) (v : Json) : Prop :=
  ∃ core tail, v = .text ((core ++ tail).map CodePoint.scalar) ∧ Matches pattern ns core ∧
    IsEnd tail

section Numbers

variable {pattern : List Piece} {refusal : Error} {v : Json}

theorem numbersOf_of_hasPattern {ns : List Numeral} (hp : separated pattern = true)
    (h : HasPattern pattern ns v) : numbersOf pattern refusal v = values ns := by
  obtain ⟨core, tail, rfl, hm, ht⟩ := h
  have hc := Text.chars?_eq_some_iff.mpr (rfl : (core ++ tail).map CodePoint.scalar = _)
  have hn := (matchPieces_eq_some_iff hp).mpr ⟨core, tail, rfl, hm, ht⟩
  simp only [numbersOf, hc, Option.bind_some, hn]

theorem numbersOf_of_other (hp : separated pattern = true)
    (h : ∀ ns, ¬HasPattern pattern ns v) :
    numbersOf pattern refusal v = .error refusal := by
  cases v with
  | text s =>
    have hnone : s.chars?.bind (matchPieces pattern) = none := by
      rw [Option.eq_none_iff_forall_not_mem]
      intro ns hns
      obtain ⟨cs, hc, hm⟩ := Option.bind_eq_some_iff.mp hns
      obtain ⟨core, tail, rfl, hm, ht⟩ := (matchPieces_eq_some_iff hp).mp hm
      exact h ns ⟨core, tail, by rw [Text.chars?_eq_some_iff.mp hc], hm, ht⟩
    simp only [numbersOf, hnone]
  | _ => rfl

theorem numbersOf_eq_ok_iff {xs : List Int} (hp : separated pattern = true) :
    numbersOf pattern refusal v = .ok xs ↔
      ∃ ns, HasPattern pattern ns v ∧ (∀ n ∈ ns, n.digits.length ≤ 4300) ∧
        xs = ns.map Numeral.int := by
  by_cases h : ∃ ns, HasPattern pattern ns v
  · obtain ⟨ns, hns⟩ := h
    constructor
    · intro hx
      rw [numbersOf_of_hasPattern hp hns] at hx
      exact ⟨ns, hns, values_eq_ok_iff.mp hx⟩
    · rintro ⟨ms, hms, hx⟩
      rw [numbersOf_of_hasPattern hp hms]
      exact values_eq_ok_iff.mpr hx
  · rw [not_exists] at h
    simp [numbersOf_of_other hp h, h]

theorem failsByNumber_numbersOf (hp : separated pattern = true) (hr : refusal.isNumber = false) :
    FailsByNumber (numbersOf pattern refusal v) ↔
      ∃ ns, HasPattern pattern ns v ∧ ∃ n ∈ ns, 4300 < n.digits.length := by
  by_cases h : ∃ ns, HasPattern pattern ns v
  · obtain ⟨ns, hns⟩ := h
    constructor
    · intro hx
      rw [numbersOf_of_hasPattern hp hns] at hx
      exact ⟨ns, hns, failsByNumber_values.mp hx⟩
    · rintro ⟨ms, hms, hx⟩
      rw [numbersOf_of_hasPattern hp hms]
      exact failsByNumber_values.mpr hx
  · rw [not_exists] at h
    simp [numbersOf_of_other hp h, h, hr]

end Numbers

end NeoListing.DebugInfo

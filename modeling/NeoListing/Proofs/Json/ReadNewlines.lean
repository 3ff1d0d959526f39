import NeoListing.Json.Reader
import NeoListing.Proofs.Json.NumberNewlines
import NeoListing.Proofs.Json.TextNewlines

/-! # Values in text with line endings unified

Line endings are blank between tokens, and no token has one inside. So a text with its line
endings unified has the same tokens, whatever their places, and the same value or the same fault.
-/

namespace NeoListing.Json
open Text

/-! ## Tokens -/

def Lexeme.unplaced : Lexeme → Lexeme
  | .brokenText fault => .brokenText fault.unplaced
  | .brokenNumber fault => .brokenNumber fault.unplaced
  | l => l

def Token.unplaced (t : Token) : Token := ⟨t.lexeme.unplaced, 0⟩

theorem Lexeme.isBroken_unplaced (l : Lexeme) : l.unplaced.isBroken = l.isBroken := by
  cases l <;> rfl

theorem lexeme_text (left : Nat) (rest : List Char) {s : Text} {after : Nat}
    (h : textBody left (left - 1) [] rest = .ok (s, after)) :
    lexeme left '"' rest = (.text s, left - 1 - after) := by
  simp only [lexeme, h]

theorem lexeme_brokenText (left : Nat) (rest : List Char) {fault : Fault}
    (h : textBody left (left - 1) [] rest = .error fault) :
    lexeme left '"' rest = (.brokenText fault, 0) := by
  simp only [lexeme, h]

/-- A word has no line endings. -/
theorem not_mem_words : ∀ w ∈ words, '\r' ∉ w.1 ∧ '\n' ∉ w.1 := by
  decide

theorem find?_words_unifyNewlines (cs : List Char) :
    words.find? (fun w => w.1.isPrefixOf (unifyNewlines cs)) =
      words.find? (fun w => w.1.isPrefixOf cs) := by
  refine List.find?_congr fun w hw => ?_
  obtain ⟨hr, hn⟩ := not_mem_words w hw
  exact isPrefixOf_unifyNewlines hr hn cs

def SameLexeme (rest : List Char) (x y : Lexeme × Nat) : Prop :=
  y.1.unplaced = x.1.unplaced ∧ (x.1.isBroken = false → y.2 = x.2 ∧ '\r' ∉ rest.take x.2)

theorem sameLexeme_text (rest : List Char) :
    SameLexeme rest (lexeme (rest.length + 1) '"' rest)
      (lexeme ((unifyNewlines rest).length + 1) '"' (unifyNewlines rest)) := by
  have hbody := textBody_unifyNewlines (rest.length + 1) ((unifyNewlines rest).length + 1)
    rest.length [] rest rfl
  rcases hbody with ⟨fault, fault', hb, hb', hu⟩ | ⟨s, used, more, hs, hm, hb, hb'⟩
  · rw [lexeme_brokenText _ _ hb, lexeme_brokenText _ _ hb']
    refine ⟨?_, fun h => ?_⟩
    · simp only [Lexeme.unplaced, hu]
    · cases h
  · rw [lexeme_text _ _ hb, lexeme_text _ _ hb']
    have hcount : rest.length - more.length = used.length := by
      rw [hs, List.length_append, Nat.add_sub_cancel]
    have hcount' : (unifyNewlines rest).length - (unifyNewlines more).length = used.length := by
      rw [hs, unifyNewlines_append hm, List.length_append, Nat.add_sub_cancel]
    refine ⟨rfl, fun _ => ?_⟩
    simp only [Nat.add_sub_cancel, hcount, hcount', true_and]
    rwa [hs, List.take_left]

def marks : List Char := ['[', ']', '{', '}', ',', ':', '"']

theorem lexeme_mark {c : Char} (hm : c ∈ marks) (hq : c ≠ '"') (left left' : Nat)
    (rest rest' : List Char) :
    lexeme left' c rest' = lexeme left c rest ∧ (lexeme left c rest).2 = 0 := by
  simp only [marks, List.mem_cons, List.not_mem_nil, or_false] at hm
  rcases hm with h | h | h | h | h | h | h
  iterate 6 subst h; exact ⟨rfl, rfl⟩
  exact absurd h hq

/-- Any other character starts a word, or else a number. -/
theorem lexeme_other {c : Char} (hm : c ∉ marks) (left : Nat) (rest : List Char) :
    lexeme left c rest =
      ((words.find? fun w => w.1.isPrefixOf (c :: rest)).map fun w =>
        (Lexeme.scalar w.2, w.1.length - 1)).getD
      (((numeral? (c :: rest)).map fun n => (n.1.lexeme, n.2 - 1)).getD (.junk, 0)) := by
  unfold lexeme
  split
  iterate 7 exact absurd (by decide) hm
  cases words.find? fun w => w.1.isPrefixOf (c :: rest) with
  | some w => rfl
  | none => cases numeral? (c :: rest) <;> rfl

/-- What follows the first character of a part without carriage returns has none. -/
theorem not_mem_take_pred {c : Char} {rest : List Char} {n : Nat}
    (h : '\r' ∉ (c :: rest).take n) : '\r' ∉ rest.take (n - 1) := by
  cases n with
  | zero => simp
  | succ n =>
    rw [List.take_succ_cons, List.mem_cons, not_or] at h
    exact h.2

theorem not_mem_take_word {cs word : List Char} {value : Json}
    (h : words.find? (fun w => w.1.isPrefixOf cs) = some (word, value)) :
    '\r' ∉ cs.take word.length := by
  have hmem := (not_mem_words _ (List.mem_of_find?_eq_some h)).1
  have hfront := List.find?_some h
  rwa [← List.prefix_iff_eq_take.mp (List.isPrefixOf_iff_prefix.mp hfront)]

theorem not_mem_take_lexeme {c : Char} (hm : c ∉ marks) (left : Nat) (rest : List Char) :
    '\r' ∉ rest.take (lexeme left c rest).2 := by
  rw [lexeme_other hm]
  cases hw : words.find? fun w => w.1.isPrefixOf (c :: rest) with
  | some w => exact not_mem_take_pred (not_mem_take_word hw)
  | none =>
    cases hn : numeral? (c :: rest) with
    | some n => exact not_mem_take_pred (not_mem_take_numeral hn)
    | none => simp

theorem lexeme_unifyNewlines {c : Char} (hc : c ≠ '\r') (rest : List Char) :
    SameLexeme rest (lexeme (rest.length + 1) c rest)
      (lexeme ((unifyNewlines rest).length + 1) c (unifyNewlines rest)) := by
  by_cases hq : c = '"'
  · subst hq
    exact sameLexeme_text rest
  by_cases hm : c ∈ marks
  · obtain ⟨hsame, hzero⟩ := lexeme_mark hm hq (rest.length + 1)
      ((unifyNewlines rest).length + 1) rest (unifyNewlines rest)
    rw [hsame]
    refine ⟨rfl, fun _ => ⟨rfl, ?_⟩⟩
    rw [hzero, List.take_zero]
    exact List.not_mem_nil
  · have hfind := find?_words_unifyNewlines (c :: rest)
    have hnumeral := numeral?_unifyNewlines (c :: rest)
    rw [unifyNewlines_cons hc] at hfind hnumeral
    have hsame : lexeme ((unifyNewlines rest).length + 1) c (unifyNewlines rest) =
        lexeme (rest.length + 1) c rest := by
      rw [lexeme_other hm, lexeme_other hm, hfind, hnumeral]
    rw [hsame]
    exact ⟨rfl, fun _ => ⟨rfl, not_mem_take_lexeme hm _ rest⟩⟩

def unplacedTokens (cs : List Char) : List Token := (tokens cs.length cs).map Token.unplaced

theorem unplacedTokens_blank {c : Char} (h : isBlank c = true) (rest : List Char) :
    unplacedTokens (c :: rest) = unplacedTokens rest := by
  rw [unplacedTokens, tokens, if_pos h, List.length_cons, Nat.add_sub_cancel, unplacedTokens]

theorem unplacedTokens_broken {c : Char} (h : isBlank c = false) (rest : List Char)
    (hb : (lexeme (rest.length + 1) c rest).1.isBroken = true) :
    unplacedTokens (c :: rest) = [⟨(lexeme (rest.length + 1) c rest).1.unplaced, 0⟩] := by
  rw [unplacedTokens, tokens, if_neg (by simp [h])]
  simp only [List.length_cons, hb, if_true, List.map_cons, List.map_nil, Token.unplaced]

theorem unplacedTokens_cons {c : Char} (h : isBlank c = false) (rest : List Char)
    (hb : (lexeme (rest.length + 1) c rest).1.isBroken = false) :
    unplacedTokens (c :: rest) = ⟨(lexeme (rest.length + 1) c rest).1.unplaced, 0⟩ ::
      unplacedTokens (rest.drop (lexeme (rest.length + 1) c rest).2) := by
  rw [unplacedTokens, tokens, if_neg (by simp [h])]
  simp only [List.length_cons, hb, Bool.false_eq_true, if_false, List.map_cons, Token.unplaced,
    Nat.add_sub_cancel, unplacedTokens, List.length_drop]

/-- Line endings are blank between tokens, and no token but a broken one has one inside. -/
theorem unplacedTokens_unifyNewlines (cs : List Char) :
    unplacedTokens (unifyNewlines cs) = unplacedTokens cs := by
  induction hn : cs.length using Nat.strong_induction_on generalizing cs with
  | _ n ih =>
    subst hn
    cases cs with
    | nil => rw [unifyNewlines_nil]
    | cons c rest =>
      by_cases hc : c = '\r'
      · subst hc
        obtain ⟨more, hmore, hrest⟩ := unifyNewlines_return rest
        rw [hmore, unplacedTokens_blank (by decide), unplacedTokens_blank (by decide)]
        rcases hrest with h | h
        · rw [h]
          exact ih _ (by simp) rest rfl
        · subst h
          rw [unplacedTokens_blank (by decide)]
          exact ih _ (by simp) more rfl
      · rw [unifyNewlines_cons hc]
        cases hblank : isBlank c with
        | true =>
          rw [unplacedTokens_blank hblank, unplacedTokens_blank hblank]
          exact ih _ (by simp) rest rfl
        | false =>
          obtain ⟨hl, hmore⟩ := lexeme_unifyNewlines hc rest
          have hbroken := congrArg Lexeme.isBroken hl
          rw [Lexeme.isBroken_unplaced, Lexeme.isBroken_unplaced] at hbroken
          cases hb : (lexeme (rest.length + 1) c rest).1.isBroken with
          | true =>
            rw [unplacedTokens_broken hblank rest hb,
              unplacedTokens_broken hblank _ (hbroken.trans hb), hl]
          | false =>
            obtain ⟨hcount, hr⟩ := hmore hb
            rw [unplacedTokens_cons hblank rest hb,
              unplacedTokens_cons hblank _ (hbroken.trans hb), hl, hcount, drop_unifyNewlines hr]
            refine congrArg _ (ih _ ?_ _ rfl)
            rw [List.length_drop, List.length_cons]
            omega

/-! ## Values -/

variable (depth : Nat)

theorem State.enter_unplaced (stack : List Frame) (inside : State) :
    (enter depth stack inside).mapError Fault.unplaced = enter depth stack inside := by
  unfold enter
  split <;> rfl

theorem State.startValue_unplaced (stack : List Frame) (t : Token) :
    startValue depth stack t.unplaced = (startValue depth stack t).mapError Fault.unplaced := by
  obtain ⟨l, left⟩ := t
  cases l
  case openArray => exact (enter_unplaced depth stack _).symm
  case openObject => exact (enter_unplaced depth stack _).symm
  all_goals rfl

theorem State.startName_unplaced (stack : List Frame) (members : List (Text × Json)) (t : Token) :
    startName stack members t.unplaced = (startName stack members t).mapError Fault.unplaced := by
  obtain ⟨l, left⟩ := t
  cases l <;> rfl

theorem State.step_unplaced (s : State) (t : Token) :
    s.step depth t.unplaced = (s.step depth t).mapError Fault.unplaced := by
  cases s with
  | value stack => exact startValue_unplaced depth stack t
  | firstItem stack =>
    have h := startValue_unplaced depth (.array [] :: stack) t
    obtain ⟨l, left⟩ := t
    cases l
    case closeArray => rfl
    all_goals exact h
  | firstName stack =>
    have h := startName_unplaced stack [] t
    obtain ⟨l, left⟩ := t
    cases l
    case closeObject => rfl
    all_goals exact h
  | name stack members => exact startName_unplaced stack members t
  | colon stack members label =>
    obtain ⟨l, left⟩ := t
    cases l <;> rfl
  | after frame stack =>
    obtain ⟨l, left⟩ := t
    cases frame <;> cases l <;> rfl
  | done value => rfl

theorem State.run_unplaced (ts : List Token) (s : State) :
    (ts.map Token.unplaced).foldlM (step depth) s =
      (ts.foldlM (step depth) s).mapError Fault.unplaced := by
  induction ts generalizing s with
  | nil => rfl
  | cons t rest ih =>
    rw [List.map_cons, List.foldlM_cons, List.foldlM_cons, step_unplaced]
    cases s.step depth t with
    | error fault => rfl
    | ok s' => exact ih s'

theorem State.finish_unplaced (s : State) : s.finish.mapError Fault.unplaced = s.finish := by
  cases s <;> rfl

def readTokens (ts : List Token) : Except Fault Json :=
  ts.foldlM (State.step depth) (.value []) >>= State.finish

theorem readTokens_unplaced (ts : List Token) :
    readTokens depth (ts.map Token.unplaced) = (readTokens depth ts).mapError Fault.unplaced := by
  rw [readTokens, readTokens, State.run_unplaced]
  cases ts.foldlM (State.step depth) (.value []) with
  | error fault => rfl
  | ok s => exact s.finish_unplaced.symm

theorem readList_mark {c : Char} (h : c.toNat = 0xFEFF) (rest : List Char) :
    readList depth (c :: rest) = .error (.malformed .byteOrderMark (c :: rest).length) := by
  simp only [readList, if_pos h]
  rfl

theorem readList_eq {cs : List Char} (h : ∀ c ∈ cs.head?, c.toNat ≠ 0xFEFF) :
    readList depth cs = readTokens depth (tokens cs.length cs) := by
  cases cs with
  | nil => rfl
  | cons c rest =>
    have hc : c.toNat ≠ 0xFEFF := h c rfl
    simp only [readList, if_neg hc]
    rfl

theorem readList_unplaced {cs : List Char} (h : ∀ c ∈ cs.head?, c.toNat ≠ 0xFEFF) :
    (readList depth cs).mapError Fault.unplaced = readTokens depth (unplacedTokens cs) := by
  rw [readList_eq depth h, unplacedTokens, readTokens_unplaced]

/-- Unified line endings leave the value read as it is, and a fault but for its place. -/
theorem readList_unifyNewlines (cs : List Char) :
    (readList depth (unifyNewlines cs)).mapError Fault.unplaced =
      (readList depth cs).mapError Fault.unplaced := by
  cases cs with
  | nil => rw [unifyNewlines_nil]
  | cons c rest =>
    by_cases hmark : c.toNat = 0xFEFF
    · have hc : c ≠ '\r' := by
        rintro rfl
        exact absurd hmark (by decide)
      rw [unifyNewlines_cons hc, readList_mark depth hmark, readList_mark depth hmark]
      rfl
    · have hhead : ∀ d ∈ (unifyNewlines (c :: rest)).head?, d.toNat ≠ 0xFEFF := by
        by_cases hc : c = '\r'
        · obtain ⟨more, hmore, -⟩ := unifyNewlines_return rest
          rw [hc, hmore]
          intro d hd
          cases hd
          decide
        · rw [unifyNewlines_cons hc]
          intro d hd
          cases hd
          exact hmark
      have hhead' : ∀ d ∈ (c :: rest).head?, d.toNat ≠ 0xFEFF := by
        intro d hd
        cases hd
        exact hmark
      rw [readList_unplaced depth hhead, readList_unplaced depth hhead',
        unplacedTokens_unifyNewlines]

def ReadError.unplaced : ReadError → ReadError
  | .malformed what _ _ _ => .malformed what 0 0 0
  | e => e

theorem Fault.unplaced_inText {f g : Fault} (h : f.unplaced = g.unplaced) (cs ds : List Char) :
    (f.inText cs).unplaced = (g.inText ds).unplaced := by
  cases f <;> cases g <;> simp_all [Fault.unplaced, Fault.inText, ReadError.unplaced]

/-- The same for a text. -/
theorem read_unifyNewlines (cs : List Char) :
    (read depth (String.ofList (unifyNewlines cs))).mapError ReadError.unplaced =
      (read depth (String.ofList cs)).mapError ReadError.unplaced := by
  have h := readList_unifyNewlines depth cs
  simp only [read, String.toList_ofList]
  cases hx : readList depth (unifyNewlines cs) <;> cases hy : readList depth cs <;> rw [hx, hy] at h
  case error.error f g =>
    have hfg : f.unplaced = g.unplaced := Except.error.inj h
    exact congrArg Except.error (Fault.unplaced_inText hfg _ _)
  case ok.ok v w =>
    have hvw : v = w := Except.ok.inj h
    rw [hvw]
  all_goals cases h

end NeoListing.Json

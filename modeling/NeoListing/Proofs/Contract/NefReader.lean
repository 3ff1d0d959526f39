import NeoListing.Contract.Nef
import NeoListing.Proofs.Outcome
import NeoListing.Proofs.Text.Utf8Codec

/-! # Readers of contract files

A reader is described by a form: which bytes stand for which value. It succeeds exactly when such
bytes are at the front of what is left, and then it takes just these.
-/

namespace NeoListing.Nef

variable {α β : Type}

/-- The reader takes a value off the front exactly where bytes of its form stand. -/
def Reads (r : Reader α) (form : α → Bytes → Prop) : Prop :=
  ∀ (c : Cursor) (a : α) (c' : Cursor), r c = .ok (a, c') ↔
    ∃ bytes, form a bytes ∧ c.rest = bytes ++ c'.rest ∧ c'.offset = c.offset + bytes.length

namespace Reads

variable {r : Reader α} {f : α → Reader β} {F F' : α → Bytes → Prop} {G : α → β → Bytes → Prop}

theorem congr (h : Reads r F) (hF : ∀ a bytes, F a bytes ↔ F' a bytes) : Reads r F' := by
  intro c a c'
  simp only [← hF]
  exact h c a c'

theorem pure (a : α) : Reads (Pure.pure a) fun b bytes => b = a ∧ bytes = [] := by
  intro c b c'
  constructor
  · intro h
    cases h
    exact ⟨[], ⟨rfl, rfl⟩, rfl, rfl⟩
  · rintro ⟨bytes, ⟨rfl, rfl⟩, hr, ho⟩
    cases c
    cases c'
    cases hr
    cases ho
    rfl

theorem bind (hr : Reads r F) (hf : ∀ a, Reads (f a) (G a)) :
    Reads (r >>= f) fun b bytes => ∃ a xs ys, bytes = xs ++ ys ∧ F a xs ∧ G a b ys := by
  intro c b c'
  have hb : (r >>= f) c = (r c >>= fun p => f p.1 p.2) := rfl
  rw [hb, Outcome.bind_eq_ok_iff]
  constructor
  · rintro ⟨⟨a, c₁⟩, hra, hfb⟩
    obtain ⟨xs, hF, hx, hox⟩ := (hr c a c₁).mp hra
    obtain ⟨ys, hG, hy, hoy⟩ := (hf a c₁ b c').mp hfb
    refine ⟨xs ++ ys, ⟨a, xs, ys, rfl, hF, hG⟩, ?_, ?_⟩
    · rw [hx, hy, List.append_assoc]
    · rw [List.length_append]
      omega
  · rintro ⟨_, ⟨a, xs, ys, rfl, hF, hG⟩, hc, ho⟩
    rw [List.append_assoc] at hc
    rw [List.length_append] at ho
    refine ⟨⟨a, ⟨c.offset + xs.length, ys ++ c'.rest⟩⟩, ?_, ?_⟩
    · exact (hr c a _).mpr ⟨xs, hF, hc, rfl⟩
    · exact (hf a _ b c').mpr ⟨ys, hG, rfl, by simp only; omega⟩

theorem refuse (e : Error) : Reads (throw e : Reader α) fun _ _ => False := by
  intro c a c'
  constructor
  · intro h
    cases h
  · rintro ⟨bytes, hn, -⟩
    cases hn

theorem require {p : Prop} [Decidable p] {e : Error} {k : Unit → Reader α} (h : Reads (k ()) F) :
    Reads (if p then throw e >>= k else k ()) fun a bytes => ¬p ∧ F a bytes := by
  by_cases hp : p
  · rw [if_pos hp]
    refine (refuse e).congr ?_
    intro a bytes
    simp [hp]
  · rw [if_neg hp]
    refine h.congr ?_
    intro a bytes
    simp [hp]

end Reads

theorem reads_bytes (count : Nat) :
    Reads (readBytes count) fun chunk bytes => bytes = chunk ∧ chunk.length = count := by
  intro c chunk c'
  simp only [readBytes, List.length_take]
  by_cases h : min count c.rest.length < count
  · rw [if_pos h]
    constructor
    · intro he
      cases he
    · rintro ⟨bytes, ⟨rfl, hl⟩, hc, -⟩
      rw [hc, List.length_append] at h
      omega
  · rw [if_neg h]
    constructor
    · intro he
      cases he
      refine ⟨_, ⟨rfl, ?_⟩, ?_, ?_⟩
      · rw [List.length_take]
        omega
      · exact (List.take_append_drop count c.rest).symm
      · rw [List.length_take]
        simp only
        omega
    · rintro ⟨bytes, ⟨rfl, rfl⟩, hc, ho⟩
      cases c'
      simp only at hc ho
      rw [hc, ho, List.take_left, List.drop_left]

theorem reads_nat (width : Nat) :
    Reads (readNat width) fun n bytes => bytes.length = width ∧ Bytes.natLE bytes = n := by
  refine (Reads.bind (reads_bytes width) fun chunk => Reads.pure (Bytes.natLE chunk)).congr ?_
  intro n bytes
  constructor
  · rintro ⟨chunk, xs, ys, rfl, ⟨rfl, hl⟩, rfl, rfl⟩
    rw [List.append_nil]
    exact ⟨hl, rfl⟩
  · rintro ⟨hl, rfl⟩
    exact ⟨bytes, bytes, [], (List.append_nil bytes).symm, ⟨rfl, hl⟩, rfl, rfl⟩

theorem natLE_eq_iff {width n : Nat} (hn : n < Nat.pow 256 width) {bytes : Bytes} :
    (bytes.length = width ∧ Bytes.natLE bytes = n) ↔ bytes = Bytes.ofNatLE width n := by
  constructor
  · rintro ⟨rfl, rfl⟩
    exact (Bytes.ofNatLE_natLE bytes).symm
  · rintro rfl
    exact ⟨Bytes.length_ofNatLE width n, Bytes.natLE_ofNatLE hn⟩

/-- A number that must be `n` stands for its bytes. -/
theorem Reads.expect {width n : Nat} (hn : n < Nat.pow 256 width) {e : Nat → Error}
    {k : Unit → Reader α} {F : α → Bytes → Prop} (h : Reads (k ()) F) :
    Reads (readNat width >>= fun found => if found ≠ n then throw (e found) >>= k else k ())
      fun a bytes => ∃ rest, bytes = Bytes.ofNatLE width n ++ rest ∧ F a rest := by
  refine ((reads_nat width).bind fun found => Reads.require h).congr ?_
  intro a bytes
  constructor
  · rintro ⟨found, xs, rest, rfl, hx, he, hF⟩
    obtain rfl := not_not.mp he
    exact ⟨rest, by rw [(natLE_eq_iff hn).mp hx], hF⟩
  · rintro ⟨rest, rfl, hF⟩
    exact ⟨n, _, rest, rfl, (natLE_eq_iff hn).mpr rfl, not_not.mpr rfl, hF⟩

theorem reads_byte :
    Reads (readNat 1) fun n bytes => ∃ b : UInt8, bytes = [b] ∧ n = b.toNat := by
  refine (reads_nat 1).congr ?_
  intro n bytes
  constructor
  · rintro ⟨hl, rfl⟩
    obtain ⟨b, rfl⟩ := List.length_eq_one_iff.mp hl
    exact ⟨b, rfl, by simp⟩
  · rintro ⟨b, rfl, rfl⟩
    exact ⟨rfl, by simp⟩

/-! ## Lengths -/

/-- How a length may be written: as one byte below the markers, or as a marker with a number of
two, four or eight bytes, whether a shorter form would do or not. -/
inductive IsLength : Nat → Bytes → Prop where
  | short (b : UInt8) (h : b.toNat < 0xFD) : IsLength b.toNat [b]
  | two (bytes : Bytes) (h : bytes.length = 2) : IsLength (Bytes.natLE bytes) (0xFD :: bytes)
  | four (bytes : Bytes) (h : bytes.length = 4) : IsLength (Bytes.natLE bytes) (0xFE :: bytes)
  | eight (bytes : Bytes) (h : bytes.length = 8) : IsLength (Bytes.natLE bytes) (0xFF :: bytes)

def IsRest (marker n : Nat) (bytes : Bytes) : Prop :=
  match markedWidth? marker with
  | some width => bytes.length = width ∧ Bytes.natLE bytes = n
  | none => n = marker ∧ bytes = []

theorem isLength_iff {n : Nat} {bytes : Bytes} :
    IsLength n bytes ↔ ∃ (b : UInt8) (rest : Bytes), bytes = b :: rest ∧ IsRest b.toNat n rest := by
  constructor
  · intro h
    cases h with
    | short b hb =>
      have hm : markedWidth? b.toNat = none := by
        simp only [markedWidth?]
        rw [if_neg (by omega), if_neg (by omega), if_neg (by omega)]
      refine ⟨b, [], rfl, ?_⟩
      rw [IsRest, hm]
      exact ⟨rfl, rfl⟩
    | two rest hl => exact ⟨0xFD, rest, rfl, hl, rfl⟩
    | four rest hl => exact ⟨0xFE, rest, rfl, hl, rfl⟩
    | eight rest hl => exact ⟨0xFF, rest, rfl, hl, rfl⟩
  · rintro ⟨b, rest, rfl, h⟩
    have hb := b.toNat_lt
    unfold IsRest markedWidth? at h
    split_ifs at h with h₁ h₂ h₃
    · obtain ⟨hl, rfl⟩ := h
      rw [show b = 0xFD from UInt8.toNat_inj.mp h₁]
      exact .two rest hl
    · obtain ⟨hl, rfl⟩ := h
      rw [show b = 0xFE from UInt8.toNat_inj.mp h₂]
      exact .four rest hl
    · obtain ⟨hl, rfl⟩ := h
      rw [show b = 0xFF from UInt8.toNat_inj.mp h₃]
      exact .eight rest hl
    · obtain ⟨rfl, rfl⟩ := h
      exact .short b (by omega)

theorem reads_length (maximum : Nat) :
    Reads (readLength maximum) fun n bytes => IsLength n bytes ∧ n ≤ maximum := by
  have hk : ∀ n, Reads (if maximum < n then throw (Error.tooLong n maximum) >>= fun _ => pure n
      else pure n) fun m bytes => ¬maximum < n ∧ m = n ∧ bytes = [] :=
    fun n => Reads.require (Reads.pure n)
  have hf : ∀ marker : Nat, Reads (do
      let length ← match markedWidth? marker with
        | some width => readNat width
        | none => pure marker
      if maximum < length then throw (.tooLong length maximum)
      return length) fun n bytes => IsRest marker n bytes ∧ n ≤ maximum := by
    intro marker
    unfold IsRest
    cases markedWidth? marker with
    | none =>
      refine ((Reads.pure marker).bind hk).congr ?_
      intro n bytes
      constructor
      · rintro ⟨m, xs, ys, rfl, ⟨rfl, rfl⟩, hm, rfl, rfl⟩
        exact ⟨⟨rfl, rfl⟩, by omega⟩
      · rintro ⟨⟨rfl, rfl⟩, hm⟩
        exact ⟨n, [], [], rfl, ⟨rfl, rfl⟩, by omega, rfl, rfl⟩
    | some width =>
      refine ((reads_nat width).bind hk).congr ?_
      intro n bytes
      constructor
      · rintro ⟨m, xs, ys, rfl, hx, hm, rfl, rfl⟩
        rw [List.append_nil]
        exact ⟨hx, by omega⟩
      · rintro ⟨hx, hm⟩
        exact ⟨n, bytes, [], (List.append_nil bytes).symm, hx, by omega, rfl, rfl⟩
  refine (reads_byte.bind hf).congr ?_
  intro n bytes
  rw [isLength_iff]
  constructor
  · rintro ⟨_, xs, rest, rfl, ⟨b, rfl, rfl⟩, hr, hm⟩
    exact ⟨⟨b, rest, rfl, hr⟩, hm⟩
  · rintro ⟨⟨b, rest, rfl, hr⟩, hm⟩
    exact ⟨b.toNat, [b], rest, rfl, ⟨b, rfl, rfl⟩, hr, hm⟩

def IsCounted (maximum : Nat) (content bytes : Bytes) : Prop :=
  ∃ length, bytes = length ++ content ∧ IsLength content.length length ∧ content.length ≤ maximum

theorem reads_counted (maximum : Nat) : Reads (readCounted maximum) (IsCounted maximum) := by
  refine ((reads_length maximum).bind reads_bytes).congr ?_
  intro content bytes
  constructor
  · rintro ⟨_, xs, ys, rfl, ⟨hl, hm⟩, rfl, rfl⟩
    exact ⟨xs, rfl, hl, hm⟩
  · rintro ⟨length, rfl, hl, hm⟩
    exact ⟨content.length, length, content, rfl, ⟨hl, hm⟩, rfl, rfl⟩

theorem reads_text (maximum : Nat) :
    Reads (readText maximum) fun s bytes => IsCounted maximum (Text.Utf8.encode s) bytes := by
  refine Reads.congr (Reads.bind (reads_counted maximum)
    (G := fun content s bytes => content = Text.Utf8.encode s ∧ bytes = []) ?_) ?_
  · intro content
    cases hd : Text.Utf8.decode content with
    | ok t =>
      refine (Reads.pure t).congr ?_
      intro s bytes
      rw [← Text.Utf8.decode_eq_ok_iff, hd, Except.ok.injEq]
      tauto
    | error e =>
      refine (Reads.refuse (.invalidText e)).congr ?_
      intro s bytes
      rw [← Text.Utf8.decode_eq_ok_iff, hd]
      simp
  · intro s bytes
    constructor
    · rintro ⟨content, xs, ys, rfl, hc, rfl, rfl⟩
      rwa [List.append_nil]
    · intro h
      exact ⟨_, bytes, [], (List.append_nil bytes).symm, h, rfl, rfl⟩

theorem reads_hash : Reads readHash fun hash bytes => bytes = hash.bytes := by
  intro c hash c'
  unfold readHash
  by_cases h : (c.rest.take 20).length = 20
  · rw [dif_pos h]
    constructor
    · intro he
      cases he
      refine ⟨c.rest.take 20, rfl, (List.take_append_drop 20 c.rest).symm, ?_⟩
      rw [h]
    · rintro ⟨_, rfl, hc, ho⟩
      cases c'
      cases hash with
      | mk bytes hl =>
        simp only at hc ho
        rw [hl] at ho
        simp only [hc, ho, List.take_left' hl, List.drop_left' hl]
  · rw [dif_neg h]
    constructor
    · intro he
      cases he
    · rintro ⟨_, rfl, hc, -⟩
      rw [hc, List.take_left' hash.length_eq] at h
      exact absurd hash.length_eq h

/-! ## Tokens -/

/-- The bytes of a method token: the hash, the counted name, two bytes for the number of
parameters, one that tells whether there is a result, and one for the flags. -/
def IsToken (t : MethodToken) (bytes : Bytes) : Prop :=
  ∃ (name parameters : Bytes) (method : String) (returns flags : UInt8),
    bytes = t.hash.bytes ++ name ++ parameters ++ [returns, flags] ∧
    IsCounted 32 (Text.Utf8.encode method) name ∧ method.toList.head? ≠ some '_' ∧
    parameters.length = 2 ∧ flags.toNat < 16 ∧
    t.method = .text method ∧ t.parameters = Bytes.natLE parameters ∧
    t.returns = (returns != 0) ∧ t.flags = flags.toNat

theorem toNat_bne_zero (b : UInt8) : (b.toNat != 0) = (b != 0) := by
  have h : b.toNat = 0 ↔ b = 0 := UInt8.toNat_inj (b := 0)
  simp only [bne, beq_eq_decide, h]

theorem reads_token : Reads readToken IsToken := by
  have hr : Reads readToken _ := reads_hash.bind fun hash => (reads_text maxMethodName).bind
    fun method => Reads.require ((reads_nat 2).bind fun parameters => reads_byte.bind
      fun returns => reads_byte.bind fun flags => Reads.require (Reads.pure _))
  refine hr.congr ?_
  intro t bytes
  constructor
  · rintro ⟨hash, _, _, rfl, rfl, method, name, _, rfl, hn, hm, _, parameters, _, rfl, ⟨hp, rfl⟩,
      _, _, _, rfl, ⟨returns, rfl, rfl⟩, _, _, _, rfl, ⟨flags, rfl, rfl⟩, hf, rfl, rfl⟩
    refine ⟨name, parameters, method, returns, flags, ?_, hn, hm, hp, by omega, rfl, rfl,
      toNat_bne_zero returns, rfl⟩
    simp
  · rintro ⟨name, parameters, method, returns, flags, rfl, hn, hm, hp, hf, h₁, h₂, h₃, h₄⟩
    refine ⟨t.hash, t.hash.bytes, _, ?_, rfl, method, name, _, rfl, hn, hm, _, parameters, _, rfl,
      ⟨hp, rfl⟩, _, [returns], _, rfl, ⟨returns, rfl, rfl⟩, _, [flags], [], rfl,
      ⟨flags, rfl, rfl⟩, by omega, ?_, rfl⟩
    · simp
    · cases t
      simp only at h₁ h₂ h₃ h₄
      rw [h₁, h₂, h₃, h₄, toNat_bne_zero]

theorem reads_tokens (count : Nat) :
    Reads (readTokens count) fun ts bytes => ts.length = count ∧
      ∃ parts, bytes = parts.flatten ∧ List.Forall₂ IsToken ts parts := by
  induction count with
  | zero =>
    refine (Reads.pure []).congr ?_
    intro ts bytes
    constructor
    · rintro ⟨rfl, rfl⟩
      exact ⟨rfl, [], rfl, .nil⟩
    · rintro ⟨hl, parts, rfl, hp⟩
      obtain rfl := List.length_eq_zero_iff.mp hl
      cases hp
      exact ⟨rfl, rfl⟩
  | succ count ih =>
    have hr : Reads (readTokens (count + 1)) _ :=
      reads_token.bind fun t => ih.bind fun ts => Reads.pure (t :: ts)
    refine hr.congr ?_
    intro ts bytes
    constructor
    · rintro ⟨t, part, _, rfl, ht, ts', _, _, rfl, ⟨rfl, parts, rfl, hp⟩, rfl, rfl⟩
      exact ⟨rfl, part :: parts, by simp, .cons ht hp⟩
    · rintro ⟨hl, parts, rfl, hp⟩
      cases hp with
      | nil => cases hl
      | @cons t part ts' parts' ht hp =>
        exact ⟨t, part, parts'.flatten, rfl, ht, ts', parts'.flatten, [], by simp,
          ⟨Nat.succ.inj hl, parts', rfl, hp⟩, rfl, rfl⟩

end NeoListing.Nef

import NeoListing.Proofs.Contract.NefFormat

/-! # Contract files cut short or run on

No contract file is the start of another. A reader that is given less than the bytes it would take
runs out of them before it can find any other fault, what follows a whole file is counted as
trailing, and any other last four bytes are a wrong checksum.
-/

namespace NeoListing.Nef

variable {α β : Type}

/-- The reader runs out of bytes wherever those that it would take are cut short. It says where
it wanted to read on, and the number of bytes it names there is more than what was left. -/
def Starves (r : Reader α) : Prop :=
  ∀ (c : Cursor) (a : α) (c' : Cursor), r c = .ok (a, c') →
    ∀ short missing : Bytes, missing ≠ [] → c.rest = short ++ missing ++ c'.rest →
      ∃ offset needed, r ⟨c.offset, short⟩ = .error (.unexpectedEnd offset needed) ∧
        offset ≤ c.offset + short.length ∧ c.offset + short.length < offset + needed

namespace Starves

variable {r : Reader α} {f : α → Reader β} {F : α → Bytes → Prop}

theorem pure (a : α) : Starves (Pure.pure a) := by
  intro c b c' h short missing hm hc
  cases h
  have hl := congrArg List.length hc
  have hp := List.length_pos_iff.mpr hm
  simp only [List.length_append] at hl
  omega

theorem refuse (e : Error) : Starves (throw e : Reader α) := by
  intro c a c' h
  cases h

/-- Either the first reader is cut short, or it takes its bytes as before and the second one is
cut short. -/
theorem bind (hr : Reads r F) (hs : Starves r) (hf : ∀ a, Starves (f a)) : Starves (r >>= f) := by
  intro c b c' h short missing hm hc
  have hb : ∀ c, (r >>= f) c = (r c >>= fun p => f p.1 p.2) := fun _ => rfl
  rw [hb, Outcome.bind_eq_ok_iff] at h
  obtain ⟨⟨a, c₁⟩, hra, hfb⟩ := h
  obtain ⟨xs, hF, hx, ho⟩ := (hr c a c₁).mp hra
  rw [hb]
  by_cases hp : xs <+: short
  · obtain ⟨more, rfl⟩ := hp
    have htake : r ⟨c.offset, xs ++ more⟩ = .ok (a, ⟨c₁.offset, more⟩) :=
      (hr _ _ _).mpr ⟨xs, hF, rfl, ho⟩
    have hrest : c₁.rest = more ++ missing ++ c'.rest := by
      rw [hx, List.append_assoc, List.append_assoc] at hc
      rw [List.append_cancel_left hc, List.append_assoc]
    obtain ⟨offset, needed, he, hle, hlt⟩ := hf a c₁ b c' hfb more missing hm hrest
    rw [ho, Nat.add_assoc, ← List.length_append] at hle hlt
    rw [htake]
    exact ⟨offset, needed, he, hle, hlt⟩
  · rw [hx, List.append_assoc, List.append_eq_append_iff] at hc
    rcases hc with ⟨more, rfl, -⟩ | ⟨left, rfl, -⟩
    · exact absurd (List.prefix_append xs more) hp
    · have hleft : left ≠ [] := by
        rintro rfl
        exact hp ⟨[], by rw [List.append_nil, List.append_nil]⟩
      obtain ⟨offset, needed, he, hle, hlt⟩ := hs c a c₁ hra short left hleft hx
      rw [he]
      exact ⟨offset, needed, rfl, hle, hlt⟩

theorem require {p : Prop} [Decidable p] {e : Error} {k : Unit → Reader α} (h : Starves (k ())) :
    Starves (if p then throw e >>= k else k ()) := by
  by_cases hp : p
  · rw [if_pos hp]
    exact refuse e
  · rwa [if_neg hp]

end Starves

/-! ## The readers of the format -/

theorem starves_bytes (count : Nat) : Starves (readBytes count) := by
  intro c chunk c' h short missing hm hc
  obtain ⟨bytes, ⟨rfl, rfl⟩, hx, -⟩ := (reads_bytes count c chunk c').mp h
  have hl := congrArg List.length (List.append_cancel_right (hx.symm.trans hc))
  have hp := List.length_pos_iff.mpr hm
  rw [List.length_append] at hl
  refine ⟨c.offset, bytes.length, ?_, by omega, by omega⟩
  rw [readBytes, if_pos]
  rw [List.length_take]
  simp only
  omega

theorem starves_nat (width : Nat) : Starves (readNat width) :=
  .bind (reads_bytes width) (starves_bytes width) fun _ => .pure _

theorem starves_length (maximum : Nat) : Starves (readLength maximum) := by
  refine .bind (reads_nat 1) (starves_nat 1) fun marker => ?_
  cases markedWidth? marker with
  | none => exact .bind (.pure marker) (.pure marker) fun _ => .require (.pure _)
  | some width => exact .bind (reads_nat width) (starves_nat width) fun _ => .require (.pure _)

theorem starves_counted (maximum : Nat) : Starves (readCounted maximum) :=
  .bind (reads_length maximum) (starves_length maximum) starves_bytes

theorem starves_text (maximum : Nat) : Starves (readText maximum) := by
  refine .bind (reads_counted maximum) (starves_counted maximum) fun content => ?_
  cases Text.Utf8.decode content with
  | ok s => exact .pure s
  | error e => exact .refuse (.invalidText e)

theorem starves_hash : Starves readHash := by
  intro c hash c' h short missing hm hc
  obtain ⟨bytes, rfl, hx, -⟩ := (reads_hash c hash c').mp h
  have hl := congrArg List.length (List.append_cancel_right (hx.symm.trans hc))
  have hp := List.length_pos_iff.mpr hm
  rw [List.length_append, hash.length_eq] at hl
  refine ⟨c.offset, 20, ?_, by omega, by omega⟩
  rw [readHash, dif_neg]
  rw [List.length_take]
  simp only
  omega

theorem starves_token : Starves readToken :=
  .bind reads_hash starves_hash fun _ =>
    .bind (reads_text _) (starves_text _) fun _ => .require <|
      .bind (reads_nat 2) (starves_nat 2) fun _ => .bind (reads_nat 1) (starves_nat 1) fun _ =>
        .bind (reads_nat 1) (starves_nat 1) fun _ => .require (.pure _)

theorem starves_tokens (count : Nat) : Starves (readTokens count) := by
  induction count with
  | zero => exact .pure []
  | succ count ih =>
    exact .bind reads_token starves_token fun _ => .bind (reads_tokens count) ih fun _ => .pure _

theorem starves_all : Starves readAll :=
  .bind (reads_nat 4) (starves_nat 4) fun _ => .require <|
    .bind (reads_bytes _) (starves_bytes _) fun _ => .bind (reads_text _) (starves_text _) fun _ =>
      .bind (reads_nat 1) (starves_nat 1) fun _ => .require <|
        .bind (reads_length _) (starves_length _) fun _ =>
          .bind (reads_tokens _) (starves_tokens _) fun _ =>
            .bind (reads_nat 2) (starves_nat 2) fun _ => .require <|
              .bind (reads_counted _) (starves_counted _) fun _ => .require <|
                .bind (reads_nat 4) (starves_nat 4) fun _ => .pure _

/-! ## Whole files -/

section Files

variable {n : Nef} {body sum : Bytes}

/-- The tests behind the body: first that nothing follows the checksum, then the checksum. -/
theorem parse_of_isBody (hb : IsBody n body) (hs : sum.length = 4) (rest : Bytes) :
    parse (body ++ sum ++ rest) =
      if rest ≠ [] then .error (.trailing rest.length)
      else if Bytes.natLE sum ≠ checksumOf body then .error .checksumMismatch
      else .ok ⟨n.compiler, n.source, n.tokens, n.script, Bytes.natLE sum⟩ := by
  have hr : readAll ⟨0, body ++ sum ++ rest⟩ =
      .ok (⟨n.compiler, n.source, n.tokens, n.script, Bytes.natLE sum⟩,
        ⟨(body ++ sum).length, rest⟩) :=
    (reads_all _ _ _).mpr ⟨body ++ sum, ⟨body, sum, rfl, ⟨hs, rfl⟩, hb⟩, rfl, (Nat.zero_add _).symm⟩
  have hbody : (body ++ sum).length - 4 = body.length := by
    rw [List.length_append, hs, Nat.add_sub_cancel]
  have htake : (body ++ sum ++ rest).take body.length = body := by
    rw [List.append_assoc, List.take_left]
  have hparse : parse (body ++ sum ++ rest) =
      if !rest.isEmpty then .error (.trailing rest.length)
      else if Bytes.natLE sum ≠ checksumOf ((body ++ sum ++ rest).take ((body ++ sum).length - 4))
        then .error .checksumMismatch
      else .ok ⟨n.compiler, n.source, n.tokens, n.script, Bytes.natLE sum⟩ := by
    rw [parse, hr]
    rfl
  rw [hparse, hbody, htake]
  cases rest <;> rfl

end Files

/-- Around an accepted file nothing else is accepted: more bytes are trailing, a proper start of
it ends unexpectedly, and other bytes in place of the last four are no checksum of what precedes
them. -/
theorem parse_prefix_free {data : Bytes} {n : Nef} (h : parse data = .ok n) :
    (∀ extra : Bytes, extra ≠ [] → parse (data ++ extra) = .error (.trailing extra.length)) ∧
      (∀ start : Bytes, start <+: data → start ≠ data →
        ∃ offset needed, parse start = .error (.unexpectedEnd offset needed) ∧
          offset ≤ start.length ∧ start.length < offset + needed) ∧
      ∀ sum : Bytes, sum.length = 4 → data.take (data.length - 4) ++ sum ≠ data →
        parse (data.take (data.length - 4) ++ sum) = .error .checksumMismatch := by
  obtain ⟨body, rfl, -, hb⟩ := parse_eq_ok_iff.mp h
  have hl : (Bytes.ofNatLE 4 (checksumOf body)).length = 4 := Bytes.length_ofNatLE 4 _
  refine ⟨fun extra he => ?_, fun start hp hne => ?_, fun sum hs hne => ?_⟩
  · rw [parse_of_isBody hb hl, if_pos he]
  · obtain ⟨missing, hm⟩ := hp
    have hmissing : missing ≠ [] := by
      rintro rfl
      exact hne (List.append_nil start ▸ hm)
    obtain ⟨c, hr, hrest, -⟩ := parse_eq_ok_iff_readAll.mp h
    obtain ⟨offset, needed, he, hle, hlt⟩ := starves_all _ _ _ hr start missing hmissing
      (by rw [hrest, List.append_nil, hm])
    rw [Nat.zero_add] at hle hlt
    refine ⟨offset, needed, ?_, hle, hlt⟩
    rw [parse, he]
    rfl
  · have hbody : (body ++ Bytes.ofNatLE 4 (checksumOf body)).take
        ((body ++ Bytes.ofNatLE 4 (checksumOf body)).length - 4) = body := by
      rw [List.length_append, hl, Nat.add_sub_cancel, List.take_left]
    rw [hbody] at hne ⊢
    have hsum : Bytes.natLE sum ≠ checksumOf body := fun he =>
      hne (by rw [(natLE_eq_iff (checksumOf_lt body)).mp ⟨hs, he⟩])
    have hparse := parse_of_isBody hb hs []
    rwa [List.append_nil, if_neg (not_not.mpr rfl), if_pos hsum] at hparse

def tokenFile : Bytes :=
  [0x4E, 0x45, 0x46, 0x33, 0x6E, 0x65, 0x6F, 0x6E] ++ List.replicate 60 0 ++ [0, 0, 1]
    ++ (List.range 20).map UInt8.ofNat ++ [1, 0x6D, 2, 0, 1, 15, 0, 0, 1, 0x40]
    ++ [0x47, 0x50, 0xF6, 0x1F]

/-- The start of eighty bytes ends within the hash of the token. -/
theorem parse_prefix_free_tokenFile :
    (∃ n, parse tokenFile = .ok n) ∧
      parse (tokenFile ++ [0]) = .error (.trailing 1) ∧
      (∃ offset needed, parse (tokenFile.take 80) = .error (.unexpectedEnd offset needed) ∧
        offset ≤ 80 ∧ 80 < offset + needed) ∧
      parse (tokenFile.take 101 ++ [0x47, 0x50, 0xF6, 0x1E]) = .error .checksumMismatch := by
  have hok : (parse tokenFile).isOk = true := by decide +kernel
  cases hp : parse tokenFile with
  | error e =>
    rw [hp] at hok
    cases hok
  | ok n =>
    obtain ⟨hextra, hstart, hsum⟩ := parse_prefix_free hp
    refine ⟨⟨n, rfl⟩, hextra [0] (by decide), ?_, hsum _ rfl (by decide)⟩
    exact hstart (tokenFile.take 80) (List.take_prefix 80 _) (by decide)

end NeoListing.Nef

import NeoListing.Proofs.Contract.NefReader
import NeoListing.Proofs.Contract.TokenText

/-! # The format of contract files

Parsing accepts the files of the format and nothing else, and gives the parts that a file is
made of.
-/

namespace NeoListing.Nef

/-- Everything before the checksum of a file that holds `n`: the magic number, 64 bytes for the
compiler, the source, a zero, the tokens behind their number, two zeros, and a script that is
not empty. -/
def IsBody (n : Nef) (body : Bytes) : Prop :=
  ∃ (compiler source count script : Bytes) (tokens : List Bytes),
    body = [0x4E, 0x45, 0x46, 0x33] ++ compiler ++ source ++ [0] ++ count ++ tokens.flatten
      ++ [0, 0] ++ script ∧
    compiler.length = 64 ∧ n.compiler = Text.Utf8.text (dropPadding compiler) ∧
    IsCounted 256 (Text.Utf8.encode n.source) source ∧
    IsLength n.tokens.length count ∧ n.tokens.length ≤ 128 ∧
    List.Forall₂ IsToken n.tokens tokens ∧
    IsCounted 524288 n.script script ∧ n.script ≠ []

def IsFile (n : Nef) (data : Bytes) : Prop :=
  ∃ body, data = body ++ Bytes.ofNatLE 4 (checksumOf body) ∧ n.checksum = checksumOf body ∧
    IsBody n body

theorem checksumOf_lt (body : Bytes) : checksumOf body < Nat.pow 256 4 := by
  have hl : ((sha256 (sha256 body)).take 4).length ≤ 4 := List.length_take_le 4 _
  exact Nat.lt_of_lt_of_le (Bytes.natLE_lt _) (Nat.pow_le_pow_right (by decide) hl)

theorem reads_all :
    Reads readAll fun n bytes => ∃ body sum, bytes = body ++ sum ∧
      (sum.length = 4 ∧ Bytes.natLE sum = n.checksum) ∧ IsBody n body := by
  have hr : Reads readAll _ := Reads.expect (by decide)
    ((reads_bytes compilerSize).bind fun compiler => (reads_text maxSource).bind
      fun source => Reads.expect (by decide)
        ((reads_length maxTokens).bind fun count => (reads_tokens count).bind
          fun tokens => Reads.expect (by decide)
            ((reads_counted maxScript).bind fun script => Reads.require
              ((reads_nat 4).bind fun checksum => Reads.pure _))))
  refine hr.congr ?_
  intro n bytes
  constructor
  · rintro ⟨_, rfl, _, compiler, _, rfl, ⟨rfl, hc⟩, text, source, _, rfl, hs, _, rfl,
      _, count, _, rfl, ⟨hl, hm⟩, tokens, _, _, rfl, ⟨rfl, parts, rfl, hp⟩, _, rfl,
      script, counted, _, rfl, hk, he, checksum, sum, _, rfl, hn, rfl, rfl⟩
    refine ⟨_, sum, ?_, hn, compiler, source, count, counted, parts, rfl, hc, rfl, hs, hl, hm, hp,
      hk, by simpa using he⟩
    simp [Bytes.ofNatLE, magic]
  · rintro ⟨_, sum, rfl, hn, compiler, source, count, script, parts, rfl, hc, ht, hs, hl, hm, hp,
      hk, he⟩
    refine ⟨_, ?_, compiler, compiler, _, rfl, ⟨rfl, hc⟩, n.source, source, _, rfl, hs, _, rfl,
      n.tokens.length, count, _, rfl, ⟨hl, hm⟩, n.tokens, parts.flatten, _, rfl,
      ⟨rfl, parts, rfl, hp⟩, _, rfl, n.script, script, _, rfl, hk, by simpa using he,
      n.checksum, sum, [], rfl, hn, ?_, rfl⟩
    · simp [Bytes.ofNatLE, magic]
    · cases n
      simp only at ht
      rw [← ht]

theorem parse_eq_ok_iff_readAll {data : Bytes} {n : Nef} :
    parse data = .ok n ↔ ∃ c, readAll ⟨0, data⟩ = .ok (n, c) ∧ c.rest = [] ∧
      n.checksum = checksumOf (data.take (c.offset - 4)) := by
  unfold parse
  rw [Outcome.bind_eq_ok_iff]
  constructor
  · rintro ⟨⟨m, c⟩, hr, h⟩
    obtain ⟨ht, h⟩ := Outcome.require_eq_ok_iff.mp h
    obtain ⟨hs, h⟩ := Outcome.require_eq_ok_iff.mp h
    obtain rfl := Except.ok.inj h
    exact ⟨c, hr, by simpa using ht, not_not.mp hs⟩
  · rintro ⟨c, hr, ht, hs⟩
    refine ⟨⟨n, c⟩, hr, ?_⟩
    exact Outcome.require_eq_ok_iff.mpr ⟨by simp [ht],
      Outcome.require_eq_ok_iff.mpr ⟨not_not.mpr hs, rfl⟩⟩

theorem parse_eq_ok_iff {data : Bytes} {n : Nef} : parse data = .ok n ↔ IsFile n data := by
  rw [parse_eq_ok_iff_readAll]
  constructor
  · rintro ⟨c, hr, ht, hs⟩
    obtain ⟨_, ⟨body, sum, rfl, hn, hb⟩, hd, ho⟩ := (reads_all _ _ _).mp hr
    simp only [ht, List.append_nil] at hd
    subst hd
    have hbody : c.offset - 4 = body.length := by
      simp only [List.length_append] at ho
      omega
    rw [hbody, List.take_left] at hs
    rw [hs] at hn
    rw [(natLE_eq_iff (checksumOf_lt body)).mp hn]
    exact ⟨body, rfl, hs, hb⟩
  · rintro ⟨body, rfl, hs, hb⟩
    have hn := (natLE_eq_iff (checksumOf_lt body)).mpr rfl
    rw [← hs] at hn
    refine ⟨⟨(body ++ Bytes.ofNatLE 4 (checksumOf body)).length, []⟩, ?_, rfl, ?_⟩
    · refine (reads_all _ _ _).mpr ⟨_, ⟨body, _, rfl, hn, hb⟩, ?_, ?_⟩
      · rw [List.append_nil, hs]
      · rw [hs]
        simp
    · have hlen : (body ++ Bytes.ofNatLE 4 (checksumOf body)).length - 4 = body.length := by
        simp
      rw [hlen, List.take_left, hs]

theorem IsToken.writable {t : MethodToken} {bytes : Bytes} (h : IsToken t bytes) : t.Writable := by
  obtain ⟨name, parameters, method, returns, flags, -, -, -, hl, hf, hm, hp, -, ht⟩ := h
  have hcount := Bytes.natLE_lt parameters
  rw [hl] at hcount
  refine ⟨by rw [hm]; rfl, ?_, ?_⟩
  · exact Text.writable_of_natAbs_le (k := Nat.pow 256 2) (by omega) (by decide)
  · exact Text.writable_of_natAbs_le (k := 16) (by omega) (by decide)

/-- A contract file holds no number that is too long to be written. -/
theorem writable_of_mem_tokens {data : Bytes} {n : Nef} (h : parse data = .ok n)
    {t : MethodToken} (ht : t ∈ n.tokens) : t.Writable := by
  obtain ⟨body, -, -, compiler, source, count, script, tokens, -, -, -, -, -, -, hts, -, -⟩ :=
    parse_eq_ok_iff.mp h
  obtain ⟨i, rfl⟩ := List.get_of_mem ht
  exact (hts.get i.2 (hts.length_eq ▸ i.2)).writable

/-- Parsing accepts exactly the files of the format, with the contents they have. Every other
byte string is refused with one of the errors of the format. -/
theorem parse_accepts_exactly (data : Bytes) :
    (∀ n, parse data = .ok n ↔ IsFile n data) ∧
      ((∃ e : Error, parse data = .error e) ↔ ¬∃ n, IsFile n data) := by
  refine ⟨fun n => parse_eq_ok_iff, ?_⟩
  simp only [← parse_eq_ok_iff]
  cases parse data with
  | ok n => simp
  | error e => simp

end NeoListing.Nef

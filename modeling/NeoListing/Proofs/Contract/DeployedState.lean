import NeoListing.Contract.State
import NeoListing.Proofs.Text.ByteText

/-! # States of deployed contracts

Nodes show a script in Base64, the hash of a token as the text of hashes and its flags by their
names. What is shown so is read back, in whatever order the members stand and whatever others
stand between them.
-/

namespace NeoListing

structure MethodToken.IsShownAs (t : MethodToken) (v : Json) : Prop where
  hash : v.member? "hash" = some (.text t.hash.text)
  method : v.member? "method" = some t.method
  parameters : v.member? "paramcount" = some (.int t.parameters)
  returns : v.member? "hasreturnvalue" = some (.bool t.returns)
  flags : ∃ s, CallFlags.text t.flags = some s ∧ v.member? "callflags" = some (.text s)

structure Contract.IsShownAs (script : Bytes) (tokens : List MethodToken) (manifest state : Json) :
    Prop where
  nef : ∃ nef items, state.member? "nef" = some nef ∧
    nef.member? "script" = some (.text (Base64.encode script)) ∧
    nef.member? "tokens" = some (.array items) ∧ List.Forall₂ MethodToken.IsShownAs tokens items
  manifest : state.member? "manifest" = some manifest

theorem ScriptHash.parse_text (h : ScriptHash) : parse h.text = .ok h := by
  have hm : dropHexMark h.text = some (Text.ofString (Bytes.hex h.bytes.reverse)) := by
    rw [text, Text.ofString, String.toList_append, List.map_append]
    rfl
  rw [parse, hm, Option.getD_some, Hex.decode_hex]
  simp only [List.reverse_reverse, ofBytes, h.length_eq, dite_true]

theorem CallFlags.parse_text_natCast {n : Nat} (hn : n < 16) {s : String}
    (h : text n = some s) : parse s = .ok n := by
  have hsets : ∀ n < 16, (text (n : Nat)).map (fun s => parse s) = some (.ok n) := by
    intro n hn
    interval_cases n <;> cbv
  have hs := hsets n hn
  rw [h] at hs
  exact Option.some.inj hs

theorem CallFlags.parse_text {flags : Int} (hf : 0 ≤ flags ∧ flags ≤ 15) {s : String}
    (h : text flags = some s) : parse s = .ok flags.toNat := by
  rw [← Int.toNat_of_nonneg hf.1] at h
  exact parse_text_natCast (by omega) h

namespace Json

theorem member_of_member? {v m : Json} {name : String} (h : v.member? name = some m) :
    v.member name = .ok m := by
  cases v with
  | object members =>
    have hf : find? members name = some m := h
    rw [member, hf]
  | _ => cases h

theorem memberOr_of_member? {v m : Json} {name : String} (h : v.member? name = some m)
    (default : Json) : v.memberOr name default = .ok m := by
  cases v with
  | object members =>
    have hf : find? members name = some m := h
    rw [memberOr, hf, Option.getD_some]
  | _ => cases h

end Json

namespace Contract

theorem readToken_of_isShownAs {t : MethodToken} {v : Json} (h : t.IsShownAs v)
    (hf : 0 ≤ t.flags ∧ t.flags ≤ 15) : readToken v = .ok t := by
  have hflags : ((t.flags.toNat : Nat) : Int) = t.flags := Int.toNat_of_nonneg hf.1
  obtain ⟨s, hs, hshown⟩ := h.flags
  rw [readToken, Json.member_of_member? h.hash, Json.member_of_member? h.method,
    Json.member_of_member? h.parameters, Json.member_of_member? h.returns,
    Json.member_of_member? hshown]
  simp only [shaped, readHash, readFlags, ScriptHash.parse_text, CallFlags.parse_text hf hs,
    Json.toInt, Json.isTruthy, bind, Except.bind, pure, Except.pure, hflags]

theorem readTokens_of_forall₂ {tokens : List MethodToken} {items : List Json}
    (h : List.Forall₂ MethodToken.IsShownAs tokens items)
    (hf : ∀ t ∈ tokens, 0 ≤ t.flags ∧ t.flags ≤ 15) : readTokens items = .ok tokens := by
  induction h with
  | nil => rfl
  | cons ht _ ih =>
    rw [List.forall_mem_cons] at hf
    rw [readTokens, readToken_of_isShownAs ht hf.1, ih hf.2]
    rfl

/-- Only objects give starts, and an empty one counts as absent, which comes to the same. -/
theorem manifestOf_eq {state manifest : Json} {starts : Table Int Text}
    (h : state.member? "manifest" = some manifest) (hm : Manifest.starts manifest = .ok starts) :
    manifestOf state = manifest := by
  rw [manifestOf, h]
  cases manifest with
  | object members => cases members <;> rfl
  | _ => cases hm

theorem ofState_of_isShownAs {script : Bytes} {tokens : List MethodToken} {manifest state : Json}
    {starts : Table Int Text} (h : IsShownAs script tokens manifest state)
    (hf : ∀ t ∈ tokens, 0 ≤ t.flags ∧ t.flags ≤ 15) (hm : Manifest.starts manifest = .ok starts) :
    ofState state = .ok ⟨script, tokens, none, starts⟩ := by
  obtain ⟨nef, items, hn, hs, ht, hi⟩ := h.nef
  rw [ofState, Json.member_of_member? hn]
  simp only [Json.member_of_member? hs, Json.memberOr_of_member? ht, manifestOf_eq h.manifest hm,
    hm, shaped, readScript, Base64.decode_encode, Json.items, readTokens_of_forall₂ hi hf, bind,
    Except.bind, pure, Except.pure]

end Contract

end NeoListing

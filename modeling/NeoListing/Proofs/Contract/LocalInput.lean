import NeoListing.Proofs.Contract.InlineScript
import NeoListing.Proofs.File.Removal

/-! # Contracts from local sources

A source that names a file is a contract or a damaged contract file. Any other is a script written
out or counts as not found, except that text outside ASCII without a mark is refused when it is
tried as Base64, before it could be found to be no script at all.
-/

namespace NeoListing

namespace Base64

/-- Once the text is known to be ASCII, no character is refused for being anything else. -/
theorem collect_ne_notAscii (count pads : Nat) (padded : Bool) (cs : List Char) :
    collect count pads padded cs ≠ .error .notAscii := by
  fun_induction collect count pads padded cs with
  | case1 | case2 | case3 | case4 | case5 | case8 | case9 => simp
  | case6 _ _ _ _ _ _ ih => exact ih
  | case7 _ _ _ _ _ ih => exact ih
  | case10 _ _ _ _ _ _ _ _ _ ih => exact mt Outcome.map_eq_error_iff.mp ih

theorem decode_eq_notAscii_iff {t : Text} :
    decode t = .error .notAscii ↔ ∃ p ∈ t, 128 ≤ p.toNat := by
  unfold decode
  by_cases ha : t.any (fun p => 128 ≤ p.toNat) = true
  · rw [if_pos ha]
    exact iff_of_true rfl (by simpa using ha)
  · rw [if_neg ha]
    refine iff_of_false ?_ (by simpa using ha)
    split
    · simp
    · exact mt Outcome.map_eq_error_iff.mp (collect_ne_notAscii 0 0 false t.chars)

end Base64

namespace Contract

def InputError.isLocal : InputError → Bool
  | .notFound => true
  | .nef _ => true
  | .file (.cannotRead _ _) => true
  | _ => false

/-- Text without a mark that goes beyond ASCII, blanks around it aside. -/
def IsForeign (source : Text) : Prop :=
  ScriptHash.dropHexMark (Text.trim source) = none ∧ ∃ p ∈ Text.trim source, 128 ≤ p.toNat

instance (source : Text) : Decidable (IsForeign source) := inferInstanceAs (Decidable (_ ∧ _))

section Inline

variable {source : Text}

theorem ofInline_of_foreign (h : IsForeign source) :
    ofInline source = .error (.inlineText .notAscii) := by
  rw [ofInline, decodeInline_of_notAscii h.1 (Base64.decode_eq_notAscii_iff.mpr h.2)]

theorem ofInline_of_not_foreign (h : ¬IsForeign source) :
    (∃ script, ofInline source = .ok ⟨script, [], none, []⟩) ∨
      ofInline source = .error .notFound := by
  obtain ⟨answer, ha⟩ : ∃ answer, decodeInline source = .ok answer := by
    cases hm : ScriptHash.dropHexMark (Text.trim source) with
    | some digits => exact ⟨_, decodeInline_of_mark hm⟩
    | none =>
      cases hb : Base64.decode (Text.trim source) with
      | ok bytes => exact ⟨_, decodeInline_of_base64 hm hb⟩
      | error e =>
        refine ⟨_, decodeInline_of_hex hm hb ?_⟩
        rintro rfl
        exact h ⟨hm, Base64.decode_eq_notAscii_iff.mp hb⟩
  cases answer with
  | none => exact .inr (by rw [ofInline, ha])
  | some script => exact .inl ⟨script, by rw [ofInline, ha]⟩

end Inline

theorem ofFile_of_isFile {files : FileTree} {p : Path} (h : files.isFile p = .ok true) :
    (∃ nef : Nef, ofFile files p = .ok ⟨nef.script, nef.tokens, some p, []⟩) ∨
      ∃ e, ofFile files p = .error (.nef e) := by
  obtain ⟨content, hr⟩ := FileTree.isFile_eq_true_iff_read.mp h
  simp only [ofFile, hr]
  cases hn : Nef.parse content with
  | ok nef => exact .inl ⟨nef, rfl⟩
  | error e => exact .inr ⟨e, rfl⟩

section Load

variable {files : FileTree} {source : Text}

theorem isFile_of_namesFile (h : namesFile files source = true) :
    files.isFile (Path.ofText source) = .ok true := by
  unfold namesFile at h
  split at h
  next b hf => rw [hf, h]
  next => cases h

variable {session : Node.Session} {url : Option Text}

theorem load_of_no_address (h : url = none ∨ url = some []) :
    load files session source url = loadLocal files session source := by
  rcases h with rfl | rfl <;> rfl

theorem result_of_file (h : namesFile files source = true) :
    (loadLocal files session source).result = ofFile files (Path.ofText source) := by
  rw [loadLocal, if_pos h]

theorem result_of_inline (h : namesFile files source = false) :
    (loadLocal files session source).result = ofInline source := by
  rw [loadLocal, if_neg (by simp [h])]

end Load

/-- Without a node, loading gives a contract or one of the errors that are meant for it, unless the
source names no file and goes beyond ASCII without a mark. -/
theorem load_local_iff (files : FileTree) (session : Node.Session) (source : Text)
    {url : Option Text} (hurl : url = none ∨ url = some []) :
    (((∃ contract, (load files session source url).result = .ok contract) ∨
        ∃ e, (load files session source url).result = .error e ∧ e.isLocal = true) ↔
      (namesFile files source = true ∨ ¬IsForeign source)) ∧
    (namesFile files source = false →
      (¬IsForeign source →
        (∃ script, (load files session source url).result = .ok ⟨script, [], none, []⟩) ∨
          (load files session source url).result = .error .notFound) ∧
      (IsForeign source →
        (load files session source url).result = .error (.inlineText .notAscii))) := by
  rw [load_of_no_address hurl]
  cases hf : namesFile files source with
  | true =>
    refine ⟨iff_of_true ?_ (.inl rfl), fun h => by cases h⟩
    rw [result_of_file hf]
    rcases ofFile_of_isFile (isFile_of_namesFile hf) with ⟨nef, hr⟩ | ⟨e, hr⟩
    · exact .inl ⟨_, hr⟩
    · exact .inr ⟨_, hr, rfl⟩
  | false =>
    rw [result_of_inline hf]
    refine ⟨?_, fun _ => ⟨ofInline_of_not_foreign, ofInline_of_foreign⟩⟩
    by_cases hs : IsForeign source
    · rw [ofInline_of_foreign hs]
      simp [hs, InputError.isLocal]
    · refine iff_of_true ?_ (.inr hs)
      rcases ofInline_of_not_foreign hs with ⟨script, hr⟩ | hr
      · exact .inl ⟨_, hr⟩
      · exact .inr ⟨_, hr, rfl⟩

/-- Behind a mark even text beyond ASCII is found to be no script. -/
theorem load_local_iff_marked :
    ¬IsForeign "0xé" ∧
      (load [] (Node.Session.new []) "0xé" (some [])).result = .error .notFound := by
  have hs : ¬IsForeign "0xé" := by decide
  obtain ⟨-, hinline⟩ := load_local_iff [] (Node.Session.new []) "0xé" (.inr rfl)
  refine ⟨hs, ?_⟩
  rcases (hinline (by cbv)).1 hs with ⟨script, h⟩ | h
  · cases h
  · exact h

/-- Without a mark it is refused with an error that loading is not meant to end in. -/
theorem load_local_accent :
    (load [] (Node.Session.new []) "é" none).result = .error (.inlineText .notAscii) ∧
      InputError.isLocal (.inlineText .notAscii) = false ∧
      (load [] (Node.Session.new []) "é" none).result ≠ .error .notFound := by
  have h : (load [] (Node.Session.new []) "é" none).result =
      .error (.inlineText .notAscii) := by cbv
  refine ⟨h, rfl, ?_⟩
  rw [h]
  simp

end Contract

end NeoListing

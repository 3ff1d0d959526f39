import NeoListing.Proofs.Debug.DocumentCache

/-! # Requests for documents

A sequence of requests goes through one cache. What is kept after any of them are the documents
that were asked for with success, so a document is looked up exactly when it has not been had
before. The answers are those of a reading without a cache.
-/

namespace NeoListing.Document

structure Event (ε : Type) where
  index : Int
  result : Except ε (Option Document)
  lookedUp : Option Text
  deriving DecidableEq

variable {ε : Type}

section Run

variable (info : DebugInfo) (lookup : Text → Except ε (List Text))

def cacheAfter (cache : DocumentCache) (indices : List Int) : DocumentCache :=
  indices.foldl (fun cache index => (get info lookup cache index).cache) cache

def event (cache : DocumentCache) (index : Int) : Event ε :=
  ⟨index, (get info lookup cache index).result, (get info lookup cache index).lookedUp⟩

def events (cache : DocumentCache) : List Int → List (Event ε)
  | [] => []
  | index :: rest =>
    event info lookup cache index :: events (get info lookup cache index).cache rest

def answerAfter (earlier : List Int) (index : Int) : Answer ε :=
  get info lookup (cacheAfter info lookup [] earlier) index

theorem events_append (cache : DocumentCache) (indices later : List Int) :
    events info lookup cache (indices ++ later) =
      events info lookup cache indices ++
        events info lookup (cacheAfter info lookup cache indices) later := by
  induction indices generalizing cache with
  | nil => rfl
  | cons index rest ih =>
    rw [List.cons_append, events, ih]
    rfl

theorem cacheAfter_concat (cache : DocumentCache) (indices : List Int) (index : Int) :
    cacheAfter info lookup cache (indices ++ [index]) =
      (get info lookup (cacheAfter info lookup cache indices) index).cache := by
  rw [cacheAfter, List.foldl_append]
  rfl

end Run

/-- Among some requests is one for the document with an index, which was given. -/
def Had (past : List (Event ε)) (index : Int) (document : Document) : Prop :=
  ∃ e ∈ past, e.index = index ∧ e.result = .ok (some document)

theorem had_concat_iff {past : List (Event ε)} {e : Event ε} {index : Int} {document : Document} :
    Had (past ++ [e]) index document ↔
      Had past index document ∨ e.index = index ∧ e.result = .ok (some document) := by
  simp only [Had, List.mem_append, List.mem_singleton, or_and_right, exists_or, exists_eq_left]

def Follows (cache : DocumentCache) (past : List (Event ε)) : Prop :=
  ∀ index document, cache.get? index = some document ↔ Had past index document

theorem follows_nil : Follows [] ([] : List (Event ε)) := by
  intro index document
  constructor
  · intro h
    cases h
  · rintro ⟨e, he, -⟩
    cases he

section Step

variable {info : DebugInfo} {lookup : Text → Except ε (List Text)} {cache : DocumentCache}
  {past : List (Event ε)}

/-- A request that gives no document leaves the cache to follow. -/
theorem Follows.concat_of_none (h : Follows cache past) {e : Event ε}
    (he : ∀ document, e.result ≠ .ok (some document)) : Follows cache (past ++ [e]) := by
  intro j d
  rw [had_concat_iff, h j d]
  constructor
  · exact .inl
  · rintro (hd | ⟨-, hd⟩)
    · exact hd
    · exact absurd hd (he d)

theorem Follows.get (h : Follows cache past) (index : Int) :
    Follows (get info lookup cache index).cache (past ++ [event info lookup cache index]) := by
  cases hp : info.pathAt? index with
  | none =>
    have hg : Document.get info lookup cache index = _ := get_of_outside hp
    rw [event, hg]
    exact h.concat_of_none fun document hd => by cases hd
  | some path =>
    cases hc : cache.get? index with
    | some document =>
      have hg : Document.get info lookup cache index = _ := get_of_kept hp hc
      rw [event, hg]
      intro j d
      rw [had_concat_iff, h j d]
      constructor
      · exact .inl
      · rintro (hd | ⟨rfl, hd⟩)
        · exact hd
        · cases hd
          exact (h index document).mp hc
    | none =>
      cases hl : lookup path with
      | error e =>
        have hg := get_of_failed hp hc hl
        rw [event, hg]
        exact h.concat_of_none fun document hd => by cases hd
      | ok lines =>
        have hg := get_of_found hp hc hl
        rw [event, hg]
        intro j d
        rw [had_concat_iff]
        by_cases hj : j = index
        · subst hj
          rw [Table.get?_put_self, ← h j d, hc]
          simp
        · rw [Table.get?_put_of_ne hj, h j d]
          constructor
          · exact .inl
          · rintro (hd | ⟨he, -⟩)
            · exact hd
            · exact absurd he.symm hj

end Step

section History

variable (info : DebugInfo) (lookup : Text → Except ε (List Text))

theorem follows_cacheAfter (indices : List Int) :
    Follows (cacheAfter info lookup [] indices) (events info lookup [] indices) := by
  induction indices using List.reverseRecOn with
  | nil => exact follows_nil
  | append_singleton indices index ih =>
    rw [cacheAfter_concat, events_append]
    exact ih.get index

theorem faithful_cacheAfter (indices : List Int) :
    DocumentCache.Faithful info lookup (cacheAfter info lookup [] indices) := by
  induction indices using List.reverseRecOn with
  | nil => exact DocumentCache.faithful_nil
  | append_singleton indices index ih =>
    rw [cacheAfter_concat]
    exact (get_spec ih index).2

/-- A lookup is made for a document of the list that is not kept. -/
theorem lookedUp_eq_some_iff {cache : DocumentCache} {index : Int} {path : Text} :
    (get info lookup cache index).lookedUp = some path ↔
      info.pathAt? index = some path ∧ cache.get? index = none := by
  cases hp : info.pathAt? index with
  | none => simp [get_of_outside hp]
  | some p =>
    cases hc : cache.get? index with
    | some document => simp [get_of_kept hp hc]
    | none =>
      cases hl : lookup p with
      | error e => simp [get_of_failed hp hc hl]
      | ok lines => simp [get_of_found hp hc hl]

theorem get_eq_error {cache : DocumentCache} {index : Int} {e : ε}
    (h : (get info lookup cache index).result = .error e) :
    (get info lookup cache index).cache = cache ∧
      ∃ path, (get info lookup cache index).lookedUp = some path ∧ lookup path = .error e := by
  cases hp : info.pathAt? index with
  | none =>
    rw [get_of_outside hp] at h
    cases h
  | some path =>
    cases hc : cache.get? index with
    | some document =>
      rw [get_of_kept hp hc] at h
      cases h
    | none =>
      cases hl : lookup path with
      | error e' =>
        rw [get_of_failed hp hc hl] at h ⊢
        cases h
        exact ⟨rfl, path, rfl, hl⟩
      | ok lines =>
        rw [get_of_found hp hc hl] at h
        cases h

/-- After any requests the next one is answered as without a cache. A lookup is made for it if and
only if the index is one of the list and no earlier request had its document, and with the path
under the root. One that fails changes nothing and is made again. What is kept are the documents
that were had. -/
theorem get_by_history (earlier : List Int) (index : Int) :
    (answerAfter info lookup earlier index).result = read info lookup index ∧
    (∀ path, (answerAfter info lookup earlier index).lookedUp = some path ↔
      (0 ≤ index ∧ index < info.documents.length) ∧
      (∀ document, ¬Had (events info lookup [] earlier) index document) ∧
      path = info.documentPath (info.documents.getD index.toNat [])) ∧
    (∀ e, (answerAfter info lookup earlier index).result = .error e →
      (answerAfter info lookup earlier index).cache = cacheAfter info lookup [] earlier ∧
      ∃ path, lookup path = .error e ∧
        (answerAfter info lookup earlier index).lookedUp = some path ∧
        (answerAfter info lookup (earlier ++ [index]) index).lookedUp = some path) ∧
    ∀ j document, (cacheAfter info lookup [] earlier).get? j = some document ↔
      Had (events info lookup [] earlier) j document := by
  have hf := follows_cacheAfter info lookup earlier
  refine ⟨(get_spec (faithful_cacheAfter info lookup earlier) index).1, ?_, ?_, hf⟩
  · intro path
    have hnone : (cacheAfter info lookup [] earlier).get? index = none ↔
        ∀ document, ¬Had (events info lookup [] earlier) index document := by
      rw [Option.eq_none_iff_forall_ne_some]
      exact forall_congr' fun document => not_congr (hf index document)
    rw [answerAfter, lookedUp_eq_some_iff, hnone, info.pathAt?_eq]
    by_cases hi : 0 ≤ index ∧ index < info.documents.length
    · rw [if_pos hi, Option.some.injEq, eq_comm]
      tauto
    · rw [if_neg hi]
      simp [hi]
  · intro e he
    obtain ⟨hc, path, hu, hl⟩ := get_eq_error info lookup he
    refine ⟨hc, path, hl, hu, ?_⟩
    rw [answerAfter, cacheAfter_concat, hc]
    exact hu

end History

/-- One path under two indices is looked up for each of them, once. The path that leads nowhere is
looked up again, and indices outside the list lead to no lookup. -/
theorem get_by_history_sample :
    let info : DebugInfo := ⟨["a.cs", "gone.cs", "a.cs"], some "/r", []⟩
    let lookup : Text → Except String (List Text) := fun path =>
      if path = Text.ofString "/r/a.cs" then .ok ["text"] else .error "no file"
    let answer := answerAfter info lookup [0, 1, -1, 3]
    (answer 0).lookedUp = none ∧
      (answer 1).lookedUp = some (Text.ofString "/r/gone.cs") ∧
      (answer 2).lookedUp = some (Text.ofString "/r/a.cs") ∧
      (answer (-1)).lookedUp = none := by
  intro info lookup answer
  have hpast : events info lookup [] [0, 1, -1, 3] =
      [⟨0, .ok (some ⟨Text.ofString "a.cs", ["text"]⟩), some (Text.ofString "/r/a.cs")⟩,
        ⟨1, .error "no file", some (Text.ofString "/r/gone.cs")⟩, ⟨-1, .ok none, none⟩,
        ⟨3, .ok none, none⟩] := by
    decide +kernel
  have hlooked : ∀ index path, (answer index).lookedUp = some path ↔ _ :=
    fun index => (get_by_history info lookup [0, 1, -1, 3] index).2.1
  refine ⟨?_, ?_, ?_, ?_⟩
  · rw [Option.eq_none_iff_forall_ne_some]
    intro path h
    refine ((hlooked 0 path).mp h).2.1 ⟨Text.ofString "a.cs", ["text"]⟩ ?_
    rw [hpast]
    exact ⟨_, List.mem_cons_self, rfl, rfl⟩
  · refine (hlooked 1 _).mpr ⟨by decide, ?_, by cbv⟩
    rw [hpast]
    simp [Had]
  · refine (hlooked 2 _).mpr ⟨by decide, ?_, by cbv⟩
    rw [hpast]
    simp [Had]
  · rw [Option.eq_none_iff_forall_ne_some]
    intro path h
    exact absurd ((hlooked (-1) path).mp h).1 (by decide)

end NeoListing.Document

import NeoListing.Debug.Documents
import NeoListing.Proofs.TableLookup

/-! # The cache of documents

Asking through the cache gives what a reading without one would give, as long as the cache
holds nothing but what such readings gave, and asking keeps it so.
-/

namespace NeoListing

variable {ε : Type} {info : DebugInfo} {lookup : Text → Except ε (List Text)}
  {cache : DocumentCache} {index : Int}

namespace Document

def read (info : DebugInfo) (lookup : Text → Except ε (List Text)) (index : Int) :
    Except ε (Option Document) :=
  match info.pathAt? index with
  | none => .ok none
  | some path => (lookup path).map fun lines => some ⟨DocumentName.ofPath path, lines⟩

end Document

namespace DocumentCache

/-- Every document kept is the one that reading would give. -/
def Faithful (info : DebugInfo) (lookup : Text → Except ε (List Text))
    (cache : DocumentCache) : Prop :=
  ∀ index document, cache.get? index = some document →
    Document.read info lookup index = .ok (some document)

theorem faithful_nil : Faithful info lookup [] := by
  intro index document h
  cases h

theorem Faithful.put {document : Document} (h : Faithful info lookup cache)
    (hd : Document.read info lookup index = .ok (some document)) :
    Faithful info lookup (Table.put index document cache) := by
  intro j d hj
  by_cases hi : j = index
  · subst hi
    rw [Table.get?_put_self] at hj
    cases hj
    exact hd
  · rw [Table.get?_put_of_ne hi] at hj
    exact h j d hj

end DocumentCache

namespace DebugInfo

theorem pathAt?_eq (info : DebugInfo) (index : Int) :
    info.pathAt? index =
      if 0 ≤ index ∧ index < info.documents.length then
        some (info.documentPath (info.documents.getD index.toNat []))
      else none := by
  unfold pathAt?
  by_cases hi : index < 0
  · rw [if_pos hi, if_neg (by omega)]
  · rw [if_neg hi]
    by_cases hn : index.toNat < info.documents.length
    · rw [if_pos (by omega), List.getElem?_eq_getElem hn, List.getD_eq_getElem _ _ hn]
      rfl
    · rw [if_neg (by omega), List.getElem?_eq_none (by omega)]
      rfl

end DebugInfo

namespace Document

/-! ## The ways a request can go -/

section Request

variable {path : Text} (hp : info.pathAt? index = some path)

theorem get_of_outside (h : info.pathAt? index = none) :
    get info lookup cache index = ⟨.ok none, cache, none⟩ := by
  simp only [get, h]

include hp

theorem get_of_kept {document : Document} (hc : cache.get? index = some document) :
    get info lookup cache index = ⟨.ok (some document), cache, none⟩ := by
  simp only [get, hp, hc]

theorem get_of_failed {e : ε} (hc : cache.get? index = none) (hl : lookup path = .error e) :
    get info lookup cache index = ⟨.error e, cache, some path⟩ := by
  simp only [get, hp, hc, hl]

theorem get_of_found {lines : List Text} (hc : cache.get? index = none)
    (hl : lookup path = .ok lines) :
    get info lookup cache index = ⟨.ok (some ⟨DocumentName.ofPath path, lines⟩),
      Table.put index ⟨DocumentName.ofPath path, lines⟩ cache, some path⟩ := by
  simp only [get, hp, hc, hl]

theorem read_of_path : read info lookup index =
    (lookup path).map fun lines => some ⟨DocumentName.ofPath path, lines⟩ := by
  simp only [read, hp]

end Request

theorem get_spec (h : DocumentCache.Faithful info lookup cache) (index : Int) :
    (get info lookup cache index).result = read info lookup index ∧
      DocumentCache.Faithful info lookup (get info lookup cache index).cache := by
  cases hp : info.pathAt? index with
  | none =>
    have hr : read info lookup index = .ok none := by simp only [read, hp]
    rw [get_of_outside hp]
    exact ⟨hr.symm, h⟩
  | some path =>
    have hr : read info lookup index = _ := read_of_path hp
    cases hc : cache.get? index with
    | some document =>
      rw [get_of_kept hp hc]
      exact ⟨(h index document hc).symm, h⟩
    | none =>
      cases hl : lookup path with
      | error e =>
        rw [hl] at hr
        rw [get_of_failed hp hc hl]
        exact ⟨hr.symm, h⟩
      | ok lines =>
        rw [hl] at hr
        rw [get_of_found hp hc hl]
        exact ⟨hr.symm, h.put hr⟩

end Document

end NeoListing

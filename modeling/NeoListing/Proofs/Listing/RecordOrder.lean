import NeoListing.Proofs.Listing.Landmarks

/-! # The order of debug records

Records that do not clash can come in any order: at each address there is at most one to be found,
and none is passed over. Since a plan follows the addresses of its instructions, it is then the
same, and so are the documents that are read for it, in the same order.
-/

namespace NeoListing

def DebugMethod.withoutPoints (m : DebugMethod) : DebugMethod :=
  ⟨m.scope, m.name, m.first, m.last, []⟩

namespace DebugInfo

/-- No two methods start at one address or end at one, and no two points are at one, of whatever
methods they are. -/
structure Distinct (info : DebugInfo) : Prop where
  starts : (info.methods.map DebugMethod.first).Nodup
  ends : (info.methods.map DebugMethod.last).Nodup
  points : (info.points.map SequencePoint.address).Nodup

/-- The same records in another order. Points may also have moved from one method to another. -/
structure Reordered (info info' : DebugInfo) : Prop where
  documents : info'.documents = info.documents
  root : info'.root = info.root
  methods : (info'.methods.map DebugMethod.withoutPoints).Perm
    (info.methods.map DebugMethod.withoutPoints)
  points : info'.points.Perm info.points

section Reordered

variable {info info' : DebugInfo}

theorem Reordered.map_perm (h : Reordered info info') {key : DebugMethod → Int}
    (hk : ∀ m : DebugMethod, key m.withoutPoints = key m) :
    (info'.methods.map key).Perm (info.methods.map key) := by
  have hp := h.methods.map key
  have hc : key ∘ DebugMethod.withoutPoints = key := funext hk
  rwa [List.map_map, List.map_map, hc] at hp

theorem Reordered.distinct (h : Reordered info info') (hd : info.Distinct) : info'.Distinct where
  starts := (h.map_perm fun _ => rfl).nodup_iff.mpr hd.starts
  ends := (h.map_perm fun _ => rfl).nodup_iff.mpr hd.ends
  points := (h.points.map SequencePoint.address).nodup_iff.mpr hd.points

/-- Of items with distinct keys there is one at most with a given key. -/
theorem find?_of_perm {α : Type} {key : α → Int} {l l' : List α} (hn : (l'.map key).Nodup)
    (h : l'.Perm l) (k : Int) : l'.find? (fun x => key x == k) = l.find? (fun x => key x == k) := by
  refine List.find?_eq_find?_of_perm h ?_
  rintro x ⟨hx, hkx⟩ y ⟨hy, hky⟩
  have hxy : key x = key y := (beq_iff_eq.mp hkx).trans (beq_iff_eq.mp hky).symm
  exact List.inj_on_of_nodup_map hn hx hy hxy

theorem find?_withoutPoints {key : DebugMethod → Int}
    (hk : ∀ m : DebugMethod, key m.withoutPoints = key m) (ms : List DebugMethod) (address : Int) :
    ((ms.map DebugMethod.withoutPoints).find? fun m => key m == address).map
        DebugMethod.fullName =
      (ms.find? fun m => key m == address).map DebugMethod.fullName := by
  have hp : (fun m => key m == address) ∘ DebugMethod.withoutPoints =
      fun m => key m == address := by
    funext m
    exact congrArg (· == address) (hk m)
  rw [List.find?_map, hp, Option.map_map]
  rfl

/-- The method with a given start, or with a given end, has the same name in any order. -/
theorem Reordered.fullName_find? (h : Reordered info info') {key : DebugMethod → Int}
    (hk : ∀ m : DebugMethod, key m.withoutPoints = key m) (hn : (info'.methods.map key).Nodup)
    (address : Int) :
    (info'.methods.find? fun m => key m == address).map DebugMethod.fullName =
      (info.methods.find? fun m => key m == address).map DebugMethod.fullName := by
  have hc : key ∘ DebugMethod.withoutPoints = key := funext hk
  have hm : ((info'.methods.map DebugMethod.withoutPoints).map key).Nodup := by
    rwa [List.map_map, hc]
  have hf := find?_of_perm hm h.methods address
  rw [← find?_withoutPoints hk info'.methods, hf, find?_withoutPoints hk]

theorem Reordered.pathAt?_eq (h : Reordered info info') (index : Int) :
    info'.pathAt? index = info.pathAt? index := by
  have hp : info'.documentPath = info.documentPath := by
    funext document
    simp only [documentPath, h.root]
  simp only [pathAt?, h.documents, hp]

end Reordered

end DebugInfo

/-! ## Records that are not passed over -/

namespace Table

variable {κ α : Type} [BEq κ] [LawfulBEq κ] {t : Table κ α} {k : κ} {keys : List κ}

def Fresh (t : Table κ α) (keys : List κ) : Prop := keys.Nodup ∧ ∀ k ∈ keys, t.get? k = none

omit [LawfulBEq κ] in
theorem Fresh.contains_eq_false (h : t.Fresh (k :: keys)) : t.contains k = false := by
  have hk := h.2 k List.mem_cons_self
  rw [contains, hk]
  rfl

theorem Fresh.putNew (h : t.Fresh (k :: keys)) (v : α) : (t.putNew k v).Fresh keys := by
  obtain ⟨hn, hg⟩ := h
  obtain ⟨hk, hn⟩ := List.nodup_cons.mp hn
  refine ⟨hn, fun j hj => ?_⟩
  have hj' : t.get? j = none := hg j (List.mem_cons_of_mem k hj)
  have hne : j ≠ k := fun e => hk (e ▸ hj)
  rw [get?_putNew, hj', get?_cons_of_ne hne]
  rfl

end Table

namespace Landmarks

/-- Points at new addresses are all taken, and leave no notice. -/
theorem foldl_addPoint_fresh (ps : List SequencePoint) {acc : Noted} {more : List Int}
    (h : acc.1.points.Fresh (ps.map SequencePoint.address ++ more)) :
    (ps.foldl addPoint acc).2 = acc.2 ∧ (ps.foldl addPoint acc).1.points.Fresh more := by
  induction ps generalizing acc with
  | nil => exact ⟨rfl, h⟩
  | cons p ps ih =>
    have hc := h.contains_eq_false
    have hn : (addPoint acc p).2 = acc.2 := by
      simp only [addPoint, hc, Bool.false_eq_true, if_false]
    have hf : (addPoint acc p).1.points.Fresh (ps.map SequencePoint.address ++ more) := h.putNew p
    obtain ⟨hrest, hmore⟩ := ih hf
    exact ⟨hrest.trans hn, hmore⟩

structure Clear (marks : Landmarks) (ms : List DebugMethod) : Prop where
  starts : marks.starts.Fresh (ms.map DebugMethod.first)
  ends : marks.ends.Fresh (ms.map DebugMethod.last)
  points : marks.points.Fresh ((ms.flatMap DebugMethod.points).map SequencePoint.address)

theorem addMethod_clear {acc : Noted} {m : DebugMethod} {ms : List DebugMethod}
    (h : acc.1.Clear (m :: ms)) :
    (addMethod acc m).2 = acc.2 ∧ (addMethod acc m).1.Clear ms := by
  have hf : (addEnd (addStart acc m) m).1.points.Fresh (m.points.map SequencePoint.address ++
      (ms.flatMap DebugMethod.points).map SequencePoint.address) := by
    have hpoints := h.points
    rwa [List.flatMap_cons, List.map_append] at hpoints
  obtain ⟨hn, hp⟩ := foldl_addPoint_fresh m.points hf
  have hs : (addStart acc m).2 = acc.2 := by
    simp only [addStart, h.starts.contains_eq_false, Bool.false_eq_true, if_false]
  have he : (addEnd (addStart acc m) m).2 = (addStart acc m).2 := by
    have hc : (addStart acc m).1.ends.contains m.last = false := h.ends.contains_eq_false
    simp only [addEnd, hc, Bool.false_eq_true, if_false]
  refine ⟨hn.trans (he.trans hs), ?_, ?_, hp⟩
  · rw [addMethod_fst]
    exact h.starts.putNew m.fullName
  · rw [addMethod_fst]
    exact h.ends.putNew m.fullName

theorem foldl_addMethod_clear (ms : List DebugMethod) {acc : Noted} (h : acc.1.Clear ms) :
    (ms.foldl addMethod acc).2 = acc.2 := by
  induction ms generalizing acc with
  | nil => rfl
  | cons m ms ih =>
    obtain ⟨hn, hc⟩ := addMethod_clear h
    exact (ih hc).trans hn

theorem notices_of_distinct {info : DebugInfo} (h : info.Distinct) : (ofDebugInfo info).2 = [] := by
  have hc : empty.Clear info.methods :=
    ⟨⟨h.starts, fun _ _ => rfl⟩, ⟨h.ends, fun _ _ => rfl⟩, ⟨h.points, fun _ _ => rfl⟩⟩
  exact foldl_addMethod_clear info.methods hc

end Landmarks

/-! ## Plans -/

namespace Plan

variable {ε : Type} {info info' : DebugInfo}

section Step

variable {sources sources' : Sources ε} {marks marks' : Landmarks}

/-- An instruction's entries depend on what is known about its address, not on the tables. -/
theorem group_congr (hd : document? sources' = document? sources)
    (hc : sources'.context = sources.context)
    (hs : ∀ address, marks'.starts.get? address = marks.starts.get? address)
    (he : ∀ address, marks'.ends.get? address = marks.ends.get? address)
    (hp : ∀ address, marks'.points.get? address = marks.points.get? address) (i : Instruction) :
    group sources' marks' i = group sources marks i := by
  have hl : sourceEntry sources' = sourceEntry sources := by
    funext p
    simp only [sourceEntry, hd]
  simp only [group, hs, he, hp, hc, hl]

theorem groups_congr (hg : ∀ i, group sources' marks' i = group sources marks i)
    (is : List Instruction) : groups sources' marks' is = groups sources marks is := by
  induction is with
  | nil => rfl
  | cons i is ih => rw [groups, groups, hg, ih]

end Step

variable (names : Table Int Text) (context : Comment.Context)
  (lookup : Text → Except ε (List Text))

theorem document?_of_reordered (h : DebugInfo.Reordered info info') :
    document? ⟨some info', names, context, lookup⟩ =
      document? ⟨some info, names, context, lookup⟩ := by
  have hg : Document.get info' lookup = Document.get info lookup := by
    funext cache index
    simp only [Document.get, h.pathAt?_eq]
  funext index
  simp only [document?, hg]

/-- Records that do not clash may come in any order: the plan is the same, or fails in the same way,
the documents looked up for it are the same in the same order, and so are the notices. -/
theorem build_of_reordered (hd : info.Distinct) (h : DebugInfo.Reordered info info')
    (is : List Instruction) :
    build ⟨some info', names, context, lookup⟩ is =
      build ⟨some info, names, context, lookup⟩ is := by
  have hd' := h.distinct hd
  have hs : ∀ address, (Landmarks.ofDebugInfo info').1.starts.get? address =
      (Landmarks.ofDebugInfo info).1.starts.get? address := by
    intro address
    rw [Landmarks.get?_starts_ofDebugInfo, Landmarks.get?_starts_ofDebugInfo]
    exact h.fullName_find? (fun _ => rfl) hd'.starts address
  have he : ∀ address, (Landmarks.ofDebugInfo info').1.ends.get? address =
      (Landmarks.ofDebugInfo info).1.ends.get? address := by
    intro address
    rw [Landmarks.get?_ends_ofDebugInfo, Landmarks.get?_ends_ofDebugInfo]
    exact h.fullName_find? (fun _ => rfl) hd'.ends address
  have hp : ∀ address, (Landmarks.ofDebugInfo info').1.points.get? address =
      (Landmarks.ofDebugInfo info).1.points.get? address := by
    intro address
    rw [Landmarks.get?_points_ofDebugInfo, Landmarks.get?_points_ofDebugInfo]
    exact DebugInfo.find?_of_perm hd'.points h.points address
  have hdocument := document?_of_reordered names context lookup h
  have hg := groups_congr (fun i => group_congr hdocument rfl hs he hp i) is
  simp only [build, landmarks]
  rw [hg, Landmarks.notices_of_distinct hd, Landmarks.notices_of_distinct hd']

/-- Two methods change places and a point goes over to the other method. The second document is
still the first to be read. -/
theorem build_of_reordered_sample :
    let first : DebugMethod := ⟨"N", "f", 0, 0, [⟨0, 1, ⟨1, 1⟩, ⟨1, 2⟩⟩, ⟨1, 0, ⟨1, 1⟩, ⟨1, 2⟩⟩]⟩
    let second : DebugMethod := ⟨"N", "g", 1, 1, []⟩
    let info : DebugInfo := ⟨["a.cs", "b.cs"], none, [first, second]⟩
    let info' : DebugInfo := ⟨["a.cs", "b.cs"], none,
      [⟨"N", "g", 1, 1, [⟨1, 0, ⟨1, 1⟩, ⟨1, 2⟩⟩]⟩, ⟨"N", "f", 0, 0, [⟨0, 1, ⟨1, 1⟩, ⟨1, 2⟩⟩]⟩]⟩
    let lookup : Text → Except Empty (List Text) := fun _ => .ok ["text"]
    let is : List Instruction := [⟨0, .bare 0x11 "PUSH1", []⟩, ⟨1, .ret, []⟩]
    info.Distinct ∧ DebugInfo.Reordered info info' ∧
      build ⟨some info', [], ⟨[], []⟩, lookup⟩ is = build ⟨some info, [], ⟨[], []⟩, lookup⟩ is ∧
      (build ⟨some info', [], ⟨[], []⟩, lookup⟩ is).2.lookedUp =
        [Text.ofString "b.cs", Text.ofString "a.cs"] := by
  intro first second info info' lookup is
  have hd : info.Distinct := ⟨by decide, by decide, by decide⟩
  have h : DebugInfo.Reordered info info' := ⟨rfl, rfl, by decide, by decide⟩
  exact ⟨hd, h, build_of_reordered [] ⟨[], []⟩ lookup hd h is, by decide +kernel⟩

end Plan

end NeoListing

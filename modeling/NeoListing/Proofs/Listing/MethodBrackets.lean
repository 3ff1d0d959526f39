import NeoListing.Proofs.Listing.PlanEntries

/-! # Methods as brackets

The entries of a plan are in order: by address, and at one address the start of a method, the
source line, the instruction and the end of a method. So if methods begin and end at instructions
and have no address in common, their markers enclose exactly the instructions that they cover,
whatever the order in which the methods are recorded.
-/

namespace NeoListing

/-! ## The order of entries -/

namespace Entry

def rank : Entry → Nat
  | .methodStart _ _ => 0
  | .source _ _ _ _ => 1
  | .instruction _ _ _ _ => 2
  | .methodEnd _ _ => 3

def Precedes (a b : Entry) : Prop :=
  a.address < b.address ∨ a.address = b.address ∧ a.rank < b.rank

def isMarker : Entry → Bool
  | .methodStart _ _ => true
  | .methodEnd _ _ => true
  | _ => false

theorem Precedes.asymm {a b : Entry} (h : a.Precedes b) : ¬b.Precedes a := by
  unfold Precedes at *
  omega

theorem Precedes.address_le {a b : Entry} (h : a.Precedes b) : a.address ≤ b.address := by
  unfold Precedes at h
  omega

/-- Nothing at its address stands before the start of a method. -/
theorem Precedes.lt_methodStart {e : Entry} {address : Int} {name : Text}
    (h : e.Precedes (.methodStart address name)) : e.address < address := by
  rcases h with h | ⟨-, h⟩
  · exact h
  · exact absurd h (Nat.not_lt_zero _)

/-- Nothing at its address stands behind the end of a method. -/
theorem Precedes.methodEnd_lt {e : Entry} {address : Int} {name : Text}
    (h : Precedes (.methodEnd address name) e) : address < e.address := by
  rcases h with h | ⟨-, h⟩
  · exact h
  · have hr : e.rank ≤ 3 := by cases e <;> simp [rank]
    exact absurd hr (Nat.not_le.mpr h)

theorem nodup_of_precedes {es : List Entry} (h : es.Pairwise Precedes) : es.Nodup := by
  refine h.imp ?_
  rintro a b hab rfl
  exact hab.asymm hab

/-- Entries in order are determined by which they are. -/
theorem eq_of_precedes {es es' : List Entry} (h : es.Pairwise Precedes)
    (h' : es'.Pairwise Precedes) (hm : ∀ e, e ∈ es ↔ e ∈ es') : es = es' := by
  have hp : es.Perm es' :=
    (List.perm_ext_iff_of_nodup (nodup_of_precedes h) (nodup_of_precedes h')).mpr hm
  exact List.Perm.eq_of_pairwise (fun a b _ _ hab hba => absurd hba hab.asymm) h h' hp

/-- Two entries in order cut a row in three. -/
theorem exists_between {es : List Entry} {a b : Entry} (h : es.Pairwise Precedes) (ha : a ∈ es)
    (hb : b ∈ es) (hab : a.Precedes b) :
    ∃ before inside after, es = before ++ a :: inside ++ b :: after ∧
      (∀ e ∈ before, e.Precedes a) ∧ (∀ e ∈ inside, a.Precedes e ∧ e.Precedes b) ∧
      ∀ e ∈ after, b.Precedes e := by
  obtain ⟨before, rest, rfl⟩ := List.append_of_mem ha
  obtain ⟨-, hr, hbefore⟩ := List.pairwise_append.mp h
  obtain ⟨hrest, hr⟩ := List.pairwise_cons.mp hr
  have hb' : b ∈ rest := by
    rcases List.mem_append.mp hb with hb | hb
    · exact absurd (hbefore b hb a List.mem_cons_self) hab.asymm
    · rcases List.mem_cons.mp hb with rfl | hb
      · exact absurd hab hab.asymm
      · exact hb
  obtain ⟨inside, after, rfl⟩ := List.append_of_mem hb'
  obtain ⟨-, hr, hinside⟩ := List.pairwise_append.mp hr
  refine ⟨before, inside, after, by simp, ?_, ?_, (List.pairwise_cons.mp hr).1⟩
  · intro e he
    exact hbefore e he a List.mem_cons_self
  · intro e he
    exact ⟨hrest e (List.mem_append_left _ he), hinside e he b List.mem_cons_self⟩

end Entry

namespace Plan

variable {context : Comment.Context} {marks : Landmarks} {is : List Instruction}
  {gs : List (List Entry)}

section Group

variable {i : Instruction} {g : List Entry}

theorem IsGroupOf.pairwise_precedes (h : IsGroupOf context marks i g) :
    g.Pairwise Entry.Precedes := by
  obtain ⟨source, comment, hs, -, rfl⟩ := h
  unfold surround
  rcases hs with rfl | ⟨fileName, line, text, rfl⟩ <;>
    cases marks.starts.get? (i.address : Int) <;> cases marks.ends.get? (i.address : Int) <;>
    simp [Entry.Precedes, Entry.address, Entry.rank]

theorem IsGroupOf.methodStart_mem_iff (h : IsGroupOf context marks i g) (address : Int)
    (name : Text) :
    .methodStart address name ∈ g ↔ (i.address : Int) = address ∧
      marks.starts.get? address = some name := by
  obtain ⟨source, comment, hs, -, rfl⟩ := h
  have hsource : Entry.methodStart address name ∉ source := by
    rcases hs with rfl | ⟨fileName, line, text, rfl⟩ <;> simp
  simp only [surround, List.mem_append, Option.mem_toList, Option.map_eq_some_iff, hsource,
    List.mem_singleton, reduceCtorEq, and_false, exists_false, or_false, Entry.methodStart.injEq]
  constructor
  · rintro ⟨n, hn, rfl, rfl⟩
    exact ⟨rfl, hn⟩
  · rintro ⟨rfl, hn⟩
    exact ⟨name, hn, rfl, rfl⟩

theorem IsGroupOf.methodEnd_mem_iff (h : IsGroupOf context marks i g) (address : Int)
    (name : Text) :
    .methodEnd address name ∈ g ↔ (i.address : Int) = address ∧
      marks.ends.get? address = some name := by
  obtain ⟨source, comment, hs, -, rfl⟩ := h
  have hsource : Entry.methodEnd address name ∉ source := by
    rcases hs with rfl | ⟨fileName, line, text, rfl⟩ <;> simp
  simp only [surround, List.mem_append, Option.mem_toList, Option.map_eq_some_iff, hsource,
    List.mem_singleton, reduceCtorEq, and_false, exists_false, or_false, false_or,
    Entry.methodEnd.injEq]
  constructor
  · rintro ⟨n, hn, rfl, rfl⟩
    exact ⟨rfl, hn⟩
  · rintro ⟨rfl, hn⟩
    exact ⟨name, hn, rfl, rfl⟩

end Group

section Groups

variable (h : List.Forall₂ (IsGroupOf context marks) is gs)

include h

theorem exists_address_of_mem_flatten : ∀ e ∈ gs.flatten, ∃ i ∈ is, e.address = i.address := by
  induction h with
  | nil =>
    intro e he
    cases he
  | cons hg _ ih =>
    intro e he
    rw [List.flatten_cons, List.mem_append] at he
    rcases he with he | he
    · exact ⟨_, List.mem_cons_self, hg.address_eq e he⟩
    · obtain ⟨i, hi, ha⟩ := ih e he
      exact ⟨i, List.mem_cons_of_mem _ hi, ha⟩

theorem mem_flatten_iff {e : Entry} {P : Instruction → Prop}
    (hP : ∀ i g, IsGroupOf context marks i g → (e ∈ g ↔ P i)) :
    e ∈ gs.flatten ↔ ∃ i ∈ is, P i := by
  induction h with
  | nil => simp
  | cons hg _ ih =>
    simp only [List.flatten_cons, List.mem_append, hP _ _ hg, ih, List.mem_cons, exists_eq_or_imp]

/-- If addresses increase from one instruction to the next, then all entries are in order. -/
theorem pairwise_precedes_flatten (hr : is.Pairwise fun i j => i.address < j.address) :
    gs.flatten.Pairwise Entry.Precedes := by
  induction h with
  | nil => exact List.Pairwise.nil
  | cons hg hgs ih =>
    obtain ⟨hi, hr⟩ := List.pairwise_cons.mp hr
    rw [List.flatten_cons, List.pairwise_append]
    refine ⟨hg.pairwise_precedes, ih hr, ?_⟩
    intro a ha b hb
    obtain ⟨j, hj, hb⟩ := exists_address_of_mem_flatten hgs b hb
    have ha := hg.address_eq a ha
    have hlt := hi j hj
    exact .inl (by omega)

end Groups

end Plan

/-! ## Methods without a common address -/

def DebugMethod.Covers (m : DebugMethod) (address : Int) : Prop :=
  m.first ≤ address ∧ address ≤ m.last

def DebugMethod.Apart (m m' : DebugMethod) : Prop :=
  ∀ address, ¬(m.Covers address ∧ m'.Covers address)

instance : Std.Symm DebugMethod.Apart where
  symm _ _ h address hc := h address hc.symm

namespace DebugInfo

/-- Every method begins at an instruction and ends at one, which is not before it, and no two
methods have an address in common. -/
structure Bracketed (info : DebugInfo) (is : List Instruction) : Prop where
  first_le_last : ∀ m ∈ info.methods, m.first ≤ m.last
  first_mem : ∀ m ∈ info.methods, ∃ i ∈ is, (i.address : Int) = m.first
  last_mem : ∀ m ∈ info.methods, ∃ i ∈ is, (i.address : Int) = m.last
  apart : info.methods.Pairwise DebugMethod.Apart

def byFirst (info : DebugInfo) : List DebugMethod :=
  info.methods.mergeSort fun m m' => m.first ≤ m'.first

def markers (ms : List DebugMethod) : List Entry :=
  ms.flatMap fun m => [.methodStart m.first m.fullName, .methodEnd m.last m.fullName]

theorem mem_markers_iff {ms : List DebugMethod} {e : Entry} :
    e ∈ markers ms ↔ ∃ m ∈ ms, e = .methodStart m.first m.fullName ∨
      e = .methodEnd m.last m.fullName := by
  simp [markers]

section Bracketed

variable {info : DebugInfo} {is : List Instruction} {m m' : DebugMethod}
  (h : info.Bracketed is)

include h

theorem Bracketed.eq_of_covers (hm : m ∈ info.methods) (hm' : m' ∈ info.methods) {address : Int}
    (ha : m.Covers address) (ha' : m'.Covers address) : m = m' := by
  by_contra hne
  exact h.apart.forall hm hm' hne address ⟨ha, ha'⟩

/-- A method is found by any of its addresses, where the same one is taken of every method. -/
theorem Bracketed.find?_eq {key : DebugMethod → Int} (hk : ∀ m ∈ info.methods, m.Covers (key m))
    (hm : m ∈ info.methods) : info.methods.find? (fun x => key x == key m) = some m := by
  cases hf : info.methods.find? fun x => key x == key m with
  | none => exact absurd (beq_self_eq_true (key m)) (List.find?_eq_none.mp hf m hm)
  | some m' =>
    have hm' := List.mem_of_find?_eq_some hf
    have he : key m' = key m := by simpa using List.find?_some hf
    have hc : m'.Covers (key m) := he ▸ hk m' hm'
    rw [h.eq_of_covers hm' hm hc (hk m hm)]

/-- What is known at the addresses of instructions is what the methods say. -/
theorem Bracketed.exists_known_iff {key : DebugMethod → Int}
    (hk : ∀ m ∈ info.methods, m.Covers (key m))
    (hi : ∀ m ∈ info.methods, ∃ i ∈ is, (i.address : Int) = key m) (address : Int) (name : Text) :
    (∃ i ∈ is, (i.address : Int) = address ∧
        (info.methods.find? fun m => key m == address).map DebugMethod.fullName = some name) ↔
      ∃ m ∈ info.byFirst, key m = address ∧ m.fullName = name := by
  constructor
  · rintro ⟨i, -, -, hn⟩
    obtain ⟨m, hf, rfl⟩ := Option.map_eq_some_iff.mp hn
    have ha : key m = address := by simpa using List.find?_some hf
    exact ⟨m, List.mem_mergeSort.mpr (List.mem_of_find?_eq_some hf), ha, rfl⟩
  · rintro ⟨m, hm, rfl, rfl⟩
    have hm := List.mem_mergeSort.mp hm
    obtain ⟨i, his, ha⟩ := hi m hm
    exact ⟨i, his, ha, by rw [h.find?_eq hk hm, Option.map_some]⟩

/-- A method ends before the next one begins. -/
theorem Bracketed.byFirst_pairwise :
    info.byFirst.Pairwise fun m m' =>
      m.first ≤ m.last ∧ m.last < m'.first ∧ m'.first ≤ m'.last := by
  have hp : info.byFirst.Perm info.methods := List.mergeSort_perm _ _
  have hsorted : info.byFirst.Pairwise fun m m' => m.first ≤ m'.first := by
    have hs : info.byFirst.Pairwise fun m m' => decide (m.first ≤ m'.first) = true :=
      List.pairwise_mergeSort
        (by intro a b c hab hbc; simp only [decide_eq_true_eq] at *; omega)
        (by intro a b; simp only [Bool.or_eq_true, decide_eq_true_eq]; omega) info.methods
    exact hs.imp of_decide_eq_true
  have hapart : info.byFirst.Pairwise DebugMethod.Apart := (hp.pairwise_iff symm).mpr h.apart
  refine (hsorted.and hapart).imp_of_mem ?_
  rintro m m' hm hm' ⟨hle, ha⟩
  have hm := h.first_le_last m (hp.mem_iff.mp hm)
  have hm' := h.first_le_last m' (hp.mem_iff.mp hm')
  have hc := ha m'.first
  unfold DebugMethod.Covers at hc
  omega

theorem Bracketed.markers_pairwise : (markers info.byFirst).Pairwise Entry.Precedes := by
  have hp : info.byFirst.Perm info.methods := List.mergeSort_perm _ _
  refine List.pairwise_flatMap.mpr ⟨?_, ?_⟩
  · intro m hm
    have hle := h.first_le_last m (hp.mem_iff.mp hm)
    simp only [List.pairwise_pair, Entry.Precedes, Entry.address, Entry.rank]
    omega
  · refine h.byFirst_pairwise.imp ?_
    rintro m m' ⟨hm, hlt, hm'⟩
    simp only [List.mem_cons, List.not_mem_nil, or_false, forall_eq_or_imp, forall_eq,
      Entry.Precedes, Entry.address]
    omega

end Bracketed

end DebugInfo

namespace Plan

variable {ε : Type} {info : DebugInfo} {is : List Instruction} {es : List Entry}
  {names : Table Int Text} {context : Comment.Context} {lookup : Text → Except ε (List Text)}

/-- The markers of a plan are those of all methods. -/
theorem marker_mem_iff (hm : info.Bracketed is) {gs : List (List Entry)}
    (hg : List.Forall₂ (IsGroupOf context (Landmarks.ofDebugInfo info).1) is gs) {e : Entry}
    (he : e.isMarker = true) : e ∈ gs.flatten ↔ e ∈ DebugInfo.markers info.byFirst := by
  rw [DebugInfo.mem_markers_iff]
  cases e with
  | source address fileName line text => cases he
  | instruction address name operand comment => cases he
  | methodStart address name =>
    rw [mem_flatten_iff hg fun i g hi => hi.methodStart_mem_iff address name,
      Landmarks.get?_starts_ofDebugInfo, DebugInfo.firstStart?,
      hm.exists_known_iff (fun m hm' => ⟨le_rfl, hm.first_le_last m hm'⟩) hm.first_mem]
    simp [eq_comm]
  | methodEnd address name =>
    rw [mem_flatten_iff hg fun i g hi => hi.methodEnd_mem_iff address name,
      Landmarks.get?_ends_ofDebugInfo, DebugInfo.firstEnd?,
      hm.exists_known_iff (fun m hm' => ⟨hm.first_le_last m hm', le_rfl⟩) hm.last_mem]
    simp [eq_comm]

theorem exists_build_of_debugInfo {s : Bytes} (h : Script.disassemble s = .ok is)
    (hs : s.length < Comment.addressLimit) (ht : ∀ i ∈ is, ¬Comment.CallsUnwritable context i)
    (hl : ∀ d ∈ info.documents, ∃ lines, lookup (info.documentPath d) = .ok lines) :
    ∃ es, (build ⟨some info, names, context, lookup⟩ is).1 = .ok es := by
  obtain ⟨comments, hc⟩ := (exists_comments_iff h hs).mpr ht
  obtain ⟨lines, hlines⟩ : ∃ lines : Text → List Text, ∀ d ∈ info.documents,
      lookup (info.documentPath d) = .ok (lines (info.documentPath d)) := by
    refine ⟨fun path => (lookup path).toOption.getD [], fun d hd => ?_⟩
    obtain ⟨lines, hd⟩ := hl d hd
    simp only [hd, Except.toOption, Option.getD_some]
  rw [build_of_debugInfo hlines, reference, hc]
  exact ⟨_, rfl⟩

/-- If methods begin and end at instructions and have no address in common, then the markers of a
plan are the starts and ends of the methods in turn, in the order of their addresses and not of
the records. Between the markers of a method stands all that belongs to an address it covers, and
nothing else does. -/
theorem build_brackets_methods {s : Bytes} (h : Script.disassemble s = .ok is)
    (hm : info.Bracketed is) (names : Table Int Text) (context : Comment.Context)
    (lookup : Text → Except ε (List Text)) :
    (s.length < 10 ^ (Text.digitLimit - 1) → (∀ i ∈ is, ¬Comment.CallsUnwritable context i) →
      (∀ d ∈ info.documents, ∃ lines, lookup (info.documentPath d) = .ok lines) →
      ∃ es, (build ⟨some info, names, context, lookup⟩ is).1 = .ok es) ∧
    ∀ es, (build ⟨some info, names, context, lookup⟩ is).1 = .ok es →
      es.filter Entry.isMarker = info.byFirst.flatMap (fun m =>
        [.methodStart m.first m.fullName, .methodEnd m.last m.fullName]) ∧
      ∀ m ∈ info.methods, ∃ before inside after,
        es = before ++ .methodStart m.first m.fullName :: inside ++
          .methodEnd m.last m.fullName :: after ∧
        (∀ e ∈ inside, m.Covers e.address) ∧ ∀ e ∈ before ++ after, ¬m.Covers e.address := by
  refine ⟨fun hs ht hl => exists_build_of_debugInfo h hs ht hl, ?_⟩
  intro es hb
  obtain ⟨gs, rfl, hg⟩ := groups_of_build hb
  have hp := pairwise_precedes_flatten hg (Script.row_of_disassemble h).1.pairwise_address_lt
  have hmarkers : ∀ e, e.isMarker = true →
      (e ∈ gs.flatten ↔ e ∈ DebugInfo.markers info.byFirst) := fun e he => marker_mem_iff hm hg he
  refine ⟨?_, ?_⟩
  · refine Entry.eq_of_precedes (hp.filter _) hm.markers_pairwise ?_
    intro e
    rw [List.mem_filter]
    constructor
    · rintro ⟨he, hi⟩
      exact (hmarkers e hi).mp he
    · intro he
      have hi : e.isMarker = true := by
        obtain ⟨m, -, rfl | rfl⟩ := DebugInfo.mem_markers_iff.mp he <;> rfl
      exact ⟨(hmarkers e hi).mpr he, hi⟩
  · intro m hmem
    have hle := hm.first_le_last m hmem
    have hmem' : m ∈ info.byFirst := List.mem_mergeSort.mpr hmem
    have hstart := (hmarkers (.methodStart m.first m.fullName) rfl).mpr
      (DebugInfo.mem_markers_iff.mpr ⟨m, hmem', .inl rfl⟩)
    have hend := (hmarkers (.methodEnd m.last m.fullName) rfl).mpr
      (DebugInfo.mem_markers_iff.mpr ⟨m, hmem', .inr rfl⟩)
    have horder : Entry.Precedes (.methodStart m.first m.fullName)
        (.methodEnd m.last m.fullName) := by
      simp only [Entry.Precedes, Entry.address, Entry.rank]
      omega
    obtain ⟨before, inside, after, he, hbefore, hinside, hafter⟩ :=
      Entry.exists_between hp hstart hend horder
    refine ⟨before, inside, after, he, ?_, ?_⟩
    · intro e hi
      obtain ⟨hfirst, hlast⟩ := hinside e hi
      exact ⟨hfirst.address_le, hlast.address_le⟩
    · rintro e hi ⟨hfirst, hlast⟩
      rcases List.mem_append.mp hi with hi | hi
      · exact absurd (hbefore e hi).lt_methodStart (Int.not_lt.mpr hfirst)
      · exact absurd (hafter e hi).methodEnd_lt (Int.not_lt.mpr hlast)

/-- Two methods without a gap between them, the second recorded first and of one instruction. -/
theorem build_brackets_methods_sample :
    let info : DebugInfo := ⟨["a.cs"], none,
      [⟨"N", "g", 2, 2, []⟩, ⟨"N", "f", 0, 1, [⟨1, 0, ⟨1, 1⟩, ⟨1, 2⟩⟩]⟩]⟩
    let lookup : Text → Except Empty (List Text) := fun _ => .ok [Text.ofString "text"]
    ∃ is, Script.disassemble [0x10, 0x11, 0x40] = .ok is ∧ info.Bracketed is ∧
      ∃ es, (build ⟨some info, [], ⟨[], []⟩, lookup⟩ is).1 = .ok es ∧
        es.filter Entry.isMarker = [.methodStart 0 (Text.ofString "N.f"),
          .methodEnd 1 (Text.ofString "N.f"), .methodStart 2 (Text.ofString "N.g"),
          .methodEnd 2 (Text.ofString "N.g")] := by
  intro info lookup
  have h : Script.disassemble [0x10, 0x11, 0x40] =
      .ok [⟨0, .bare 0x10 "PUSH0", []⟩, ⟨1, .bare 0x11 "PUSH1", []⟩, ⟨2, .ret, []⟩] := by cbv
  have hm : info.Bracketed [⟨0, .bare 0x10 "PUSH0", []⟩, ⟨1, .bare 0x11 "PUSH1", []⟩,
      ⟨2, .ret, []⟩] := by
    refine ⟨by decide, by decide, by decide, ?_⟩
    refine List.pairwise_pair.mpr fun address => ?_
    simp only [DebugMethod.Covers]
    omega
  have hs : 3 < 10 ^ (Text.digitLimit - 1) :=
    Nat.lt_of_lt_of_le (m := 10 ^ 1) (by decide) (Nat.pow_le_pow_right (by decide) (by decide))
  obtain ⟨hex, hall⟩ := build_brackets_methods h hm [] ⟨[], []⟩ lookup
  obtain ⟨es, hb⟩ := hex hs (fun i _ => Comment.not_callsUnwritable (List.forall_mem_nil _) i)
    fun _ _ => ⟨_, rfl⟩
  refine ⟨_, h, hm, es, hb, ?_⟩
  rw [(hall es hb).1]
  cbv

end Plan

end NeoListing

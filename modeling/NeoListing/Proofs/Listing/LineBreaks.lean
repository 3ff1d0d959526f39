import NeoListing.Proofs.Contract.NefRoundTrip
import NeoListing.Proofs.Listing.PlainListing

/-! # Line breaks in listings

Of all that a contract file can bring into the listing of its script only the names of methods
that it calls can break a line. As long as these do not, every instruction has one line, and
a blank line stands between any two.
-/

namespace NeoListing

/-! ## Texts that stay on one line -/

theorem Text.oneLine_intercalate {s : String} (hs : (Text.ofString s).OneLine) {ts : List String}
    (ht : ∀ t ∈ ts, (Text.ofString t).OneLine) : (Text.ofString (s.intercalate ts)).OneLine := by
  simp only [Text.oneLine_ofString] at hs ht
  rw [Text.oneLine_ofString, String.toList_intercalate]
  induction ts with
  | nil => simp [List.intercalate]
  | cons t ts ih =>
    rw [List.forall_mem_cons] at ht
    have hr := ih ht.2
    cases ts with
    | nil => simpa [List.intercalate] using ht.1
    | cons u ts =>
      simp only [List.map_cons, List.intercalate, List.intersperse_cons_cons, List.flatten_cons,
        List.mem_append, not_or] at hr ⊢
      exact ⟨⟨ht.1.1, hs.1, hr.1⟩, ht.1.2, hs.2, hr.2⟩

theorem ScriptHash.oneLine_contractName (h : ScriptHash) :
    (Text.ofString h.contractName).OneLine := by
  have hnames : ScriptHash.natives.all (fun row => isBlankless row.2) = true := by cbv
  unfold ScriptHash.contractName
  cases hn : ScriptHash.natives.get? h.text with
  | none => exact h.oneLine_text
  | some name =>
    have hb := List.all_eq_true.mp hnames _ (Table.mem_of_get? hn)
    rw [Option.getD_some, Text.oneLine_ofString]
    exact ⟨not_mem_of_isBlankless hb (by decide), not_mem_of_isBlankless hb (by decide)⟩

namespace CallFlags

theorem mem_takeNamed {rows : List (Nat × String)} {remaining : Nat} {taken : List String}
    {name : String} (h : name ∈ (takeNamed rows remaining taken).2) :
    name ∈ taken ∨ name ∈ rows.map Prod.snd := by
  induction rows generalizing remaining taken with
  | nil => exact .inl h
  | cons row rows ih =>
    rw [takeNamed] at h
    split at h
    · rcases ih h with hm | hm
      · rcases List.mem_cons.mp hm with rfl | hm
        · exact .inr List.mem_cons_self
        · exact .inl hm
      · exact .inr (List.mem_cons_of_mem _ hm)
    · rcases ih h with hm | hm
      · exact .inl hm
      · exact .inr (List.mem_cons_of_mem _ hm)

theorem oneLine_of_mem_names {name : String} (h : name ∈ names.map Prod.snd) :
    (Text.ofString name).OneLine := by
  have hnames : (names.map Prod.snd).all isBlankless = true := by cbv
  have hb := List.all_eq_true.mp hnames name h
  rw [Text.oneLine_ofString]
  exact ⟨not_mem_of_isBlankless hb (by decide), not_mem_of_isBlankless hb (by decide)⟩

theorem oneLine_text {flags : Int} {s : String} (h : text flags = some s) :
    (Text.ofString s).OneLine := by
  have hnumber : ∀ {n : Int}, Text.decimal? n = some s → (Text.ofString s).OneLine := by
    intro n hn
    obtain ⟨-, rfl⟩ := Text.decimal?_eq_some_iff.mp hn
    exact Text.oneLine_int n
  unfold text at h
  split at h
  next n =>
    split at h
    next name hn =>
      obtain rfl := Option.some.inj h
      exact oneLine_of_mem_names (List.mem_map_of_mem (Table.mem_of_get? hn))
    next =>
      simp only at h
      split at h
      · obtain rfl := Option.some.inj h
        apply Text.oneLine_intercalate (Text.oneLine_ofString.mpr (by decide))
        intro name hm
        rcases mem_takeNamed hm with hm | hm
        · cases hm
        · rw [List.map_reverse, List.mem_reverse] at hm
          exact oneLine_of_mem_names hm
      · exact hnumber h
  next => exact hnumber h

end CallFlags

/-- A token is described on one line just if the name of its method has no line end. -/
theorem MethodToken.oneLine_describe_iff {t : MethodToken} {p : Parts} (h : t.parts? = some p) :
    p.describe.OneLine ↔ t.method.plain.OneLine := by
  obtain ⟨hcontract, hm, hp, hr, hf⟩ := parts?_eq_some_iff.mp h
  have hmethod := Json.eq_plain_of_plain? hm
  have hparameters : (Text.ofString p.parameters).OneLine := by
    obtain ⟨count, hc, hp⟩ := Option.map_eq_some_iff.mp hp
    obtain ⟨-, rfl⟩ := Text.decimal?_eq_some_iff.mp hc
    rw [← hp, Text.ofString_append, Text.ofString_append, Text.oneLine_append, Text.oneLine_append]
    refine ⟨⟨Text.oneLine_int _, Text.oneLine_ofString.mpr (by decide)⟩, ?_⟩
    split <;> exact Text.oneLine_ofString.mpr (by decide)
  have hreturn : (Text.ofString p.returns).OneLine := by
    rw [hr, MethodToken.returnText]
    split <;> exact Text.oneLine_ofString.mpr (by decide)
  have hflags : (Text.ofString p.flags).OneLine := by
    obtain ⟨set, hs, hf⟩ := Option.map_eq_some_iff.mp hf
    rw [← hf, Text.ofString_append, Text.oneLine_append]
    exact ⟨CallFlags.oneLine_text hs, Text.oneLine_ofString.mpr (by decide)⟩
  have hname := t.hash.oneLine_contractName
  have hdot : (Text.ofString ".").OneLine := Text.oneLine_ofString.mpr (by decide)
  have hopen : (Text.ofString " (").OneLine := Text.oneLine_ofString.mpr (by decide)
  have hcomma : (Text.ofString ", ").OneLine := Text.oneLine_ofString.mpr (by decide)
  have hclose : (Text.ofString ")").OneLine := Text.oneLine_ofString.mpr (by decide)
  simp only [Parts.describe, hcontract, hmethod, Text.oneLine_append, hname, hdot, hopen,
    hparameters, hcomma, hreturn, hflags, hclose, true_and, and_true]

/-! ## Comments -/

namespace Comment

/-- Other rules do not look at tokens. -/
theorem Rule.comment_of_ne {rule : Rule} (h : rule ≠ .methodToken) (context : Context)
    (address : Int) (operand : Bytes) :
    rule.comment context address operand = rule.comment ⟨[], context.services⟩ address operand := by
  cases rule with
  | methodToken => exact absurd rfl h
  | _ => rfl

/-- The instruction calls a method whose name has a line end in it. -/
def CallsAcrossLines (tokens : List MethodToken) (i : Instruction) : Prop :=
  i.opcode.name = "CALLT" ∧
    ∃ token, tokens[Bytes.natLE i.operand]? = some token ∧ ¬token.method.plain.OneLine

theorem oneLine_ofToken_iff {tokens : List MethodToken} {operand : Bytes} {t : Text}
    (h : ofToken tokens operand = .ok t) :
    t.OneLine ↔
      ¬∃ token, tokens[Bytes.natLE operand]? = some token ∧ ¬token.method.plain.OneLine := by
  simp only [ofToken] at h
  split at h
  next token hm =>
    obtain ⟨parts, hp, rfl⟩ := Outcome.map_eq_ok_iff.mp h
    simp [hm, MethodToken.oneLine_describe_iff (written_eq_ok_iff.mp hp)]
  next hm =>
    obtain ⟨n, hn, rfl⟩ := Outcome.map_eq_ok_iff.mp h
    refine iff_of_true ?_ ?_
    · exact Text.oneLine_append.mpr ⟨Text.oneLine_ofString.mpr (by decide), oneLine_number hn⟩
    · rintro ⟨token, ht, -⟩
      rw [hm] at ht
      cases ht

theorem oneLine_ofInstruction_iff {context : Context} (hs : Context.OneLine ⟨[], context.services⟩)
    {i : Instruction} {t : Text} (h : ofInstruction context i = .ok t) :
    t.OneLine ↔ ¬CallsAcrossLines context.tokens i := by
  unfold ofInstruction make at h
  by_cases hcall : rules.get? i.opcode.name = some .methodToken
  · have hname := name_of_methodToken hcall
    rw [hcall] at h
    rw [CallsAcrossLines, oneLine_ofToken_iff h]
    simp only [hname, true_and]
  · have hname : ¬CallsAcrossLines context.tokens i := by
      rintro ⟨hn, -⟩
      rw [hn] at hcall
      exact hcall (by cbv)
    refine iff_of_true ?_ hname
    split at h
    next rule hr =>
      rw [Rule.comment_of_ne (fun he => hcall (he ▸ hr))] at h
      exact Rule.oneLine_comment hs h
    next =>
      obtain rfl := Except.ok.inj h
      exact Text.oneLine_nil

end Comment

/-! ## Lines -/

namespace Render

theorem oneLine_commentText_iff {comment : Text} :
    (commentText false comment).OneLine ↔ comment.OneLine := by
  by_cases h : comment = []
  · simp [commentText, h]
  · have hc : commentText false comment =
        .scalar ' ' :: .scalar '#' :: .scalar ' ' :: comment := by
      rw [commentText, if_neg h]
      rfl
    simp [hc, Text.oneLine_cons]

theorem oneLine_instructionLine_iff {i : Instruction} (h : i.WellFormed) {comment : Text}
    {width : Nat} : (instructionLine width i comment).OneLine ↔ comment.OneLine := by
  constructor
  · intro hl
    rw [instructionLine, Text.oneLine_append, Text.oneLine_cons, Text.oneLine_append, lineRest,
      Text.oneLine_append] at hl
    exact oneLine_commentText_iff.mp hl.2.2.2.2.2
  · intro hc
    exact oneLine_instructionLine h hc width

/-- Behind an entry at another address every line follows an empty one. -/
theorem linesFrom_of_isChain {machine : Machine} {width : Int} {colours : Bool}
    {plan : List Entry} {rs : List Text}
    (hr : List.Forall₂ (fun e r => entry machine width colours e = .ok r) plan rs) {address : Int}
    (hc : (address :: plan.map Entry.address).IsChain (· ≠ ·)) :
    linesFrom machine width colours (some address) plan = .ok (rs.flatMap fun r => [[], r]) := by
  induction hr generalizing address with
  | nil => rfl
  | cons he _ ih =>
    rw [List.map_cons, List.isChain_cons_cons] at hc
    rw [linesFrom_cons _ he (ih hc.2), gap_of_ne hc.1]
    rfl

theorem intersperse_cons_eq {α : Type} (sep x : α) (xs : List α) :
    (x :: xs).intersperse sep = x :: xs.flatMap fun y => [sep, y] := by
  induction xs generalizing x with
  | nil => rfl
  | cons y ys ih =>
    rw [List.intersperse_cons_cons, ih]
    rfl

theorem lines_of_isChain {machine : Machine} {width : Int} {colours : Bool} {plan : List Entry}
    {rs : List Text} (hr : List.Forall₂ (fun e r => entry machine width colours e = .ok r) plan rs)
    (hc : (plan.map Entry.address).IsChain (· ≠ ·)) :
    lines machine width colours plan = .ok (rs.intersperse []) := by
  cases hr with
  | nil => rfl
  | cons he hr =>
    rw [lines, linesFrom_cons _ he (linesFrom_of_isChain hr hc), gap_none, intersperse_cons_eq]
    rfl

end Render

theorem Plan.map_address {context : Comment.Context} {is : List Instruction} {plan : List Entry}
    (h : List.Forall₂ (Plan.IsEntryOf context) is plan) :
    plan.map Entry.address = is.map fun i => (i.address : Int) := by
  induction h with
  | nil => rfl
  | cons hi _ ih =>
    obtain ⟨comment, -, rfl⟩ := hi
    rw [List.map_cons, List.map_cons, ih]
    rfl

theorem Script.Row.isChain_ne {address : Nat} {is : List Instruction} (h : Script.Row address is) :
    (is.map fun i => (i.address : Int)).IsChain (· ≠ ·) := by
  rw [List.isChain_map]
  refine h.isChain.imp ?_
  intro i j hj
  have hp := i.size_pos
  omega

def Plan.tokenSources {ε : Type} (tokens : List MethodToken)
    (lookup : Text → Except ε (List Text)) : Plan.Sources ε :=
  ⟨none, [], ⟨tokens, ServiceTable.current⟩, lookup⟩

theorem Nef.script_length_lt {data : Bytes} {n : Nef} (h : Nef.parse data = .ok n) :
    n.script.length < Comment.addressLimit := by
  obtain ⟨body, -, -, compiler, source, count, script, tokens, -, -, -, -, -, -, -, hs, -⟩ :=
    Nef.parse_eq_ok_iff.mp h
  obtain ⟨length, -, -, hl⟩ := hs
  have hlimit : 256 ^ 3 < Comment.addressLimit := Comment.pow_lt_addressLimit (by decide)
  omega

section Broken

variable {context : Comment.Context} {machine : Machine} {width : Int}

theorem Render.oneLine_iff_of_entry (hs : Comment.Context.OneLine ⟨[], context.services⟩)
    {i : Instruction} {e : Entry} {r : Text} (hw : i.WellFormed) (hi : Plan.IsEntryOf context i e)
    (hr : Render.entry machine width false e = .ok r) :
    r.OneLine ↔ ¬Comment.CallsAcrossLines context.tokens i := by
  obtain ⟨comment, hc, rfl⟩ := hi
  obtain ⟨-, -, he⟩ := entry_instruction_eq_ok_iff.mp hr
  rw [he, oneLine_instructionLine_iff hw]
  exact Comment.oneLine_ofInstruction_iff hs hc

theorem Render.forall₂_oneLine_iff (hs : Comment.Context.OneLine ⟨[], context.services⟩)
    {is : List Instruction} {plan : List Entry} {rs : List Text} (hw : ∀ i ∈ is, i.WellFormed)
    (hp : List.Forall₂ (Plan.IsEntryOf context) is plan)
    (hr : List.Forall₂ (fun e r => Render.entry machine width false e = .ok r) plan rs) :
    List.Forall₂ (fun i r => r.OneLine ↔ ¬Comment.CallsAcrossLines context.tokens i) is rs := by
  induction hp generalizing rs with
  | nil =>
    cases hr
    exact List.Forall₂.nil
  | cons hi _ ih =>
    cases hr with
    | cons he hrs =>
      rw [List.forall_mem_cons] at hw
      exact List.Forall₂.cons (oneLine_iff_of_entry hs hw.1 hi he) (ih hw.2 hrs)

end Broken

theorem Render.oneLine_of_forall₂ {tokens : List MethodToken} {is : List Instruction}
    {rs : List Text}
    (h : List.Forall₂ (fun i r => r.OneLine ↔ ¬Comment.CallsAcrossLines tokens i) is rs)
    (hc : ∀ i ∈ is, ¬Comment.CallsAcrossLines tokens i) : ∀ r ∈ rs, r.OneLine := by
  induction h with
  | nil =>
    intro r hr
    cases hr
  | cons hi _ ih =>
    rw [List.forall_mem_cons] at hc ⊢
    exact ⟨hi.mpr hc.1, ih hc.2⟩

theorem Render.splitOn_intersperse {rs : List Text} (hn : rs ≠ []) (h : ∀ r ∈ rs, r.OneLine) :
    ((Text.ofString "\n").intercalate (rs.intersperse [])).splitOn (.scalar '\n') =
      rs.intersperse [] := by
  have hs : Text.ofString "\n" = [CodePoint.scalar '\n'] := by decide
  obtain ⟨r, rest, rfl⟩ := List.exists_cons_of_ne_nil hn
  rw [hs]
  refine List.splitOn_intercalate _ ?_ (by simp [intersperse_cons_eq])
  intro l hl
  rw [intersperse_cons_eq, List.mem_cons, List.mem_flatMap] at hl
  rcases hl with rfl | ⟨u, hu, hl⟩
  · exact (h l List.mem_cons_self).1
  · rcases List.mem_pair.mp hl with rfl | rfl
    · exact List.not_mem_nil
    · exact (h l (List.mem_cons_of_mem r hu)).1

/-- The script of every contract file that decodes has a listing, with an empty line between any
two instructions. The line of an instruction is broken just if it calls a method whose name has
a line end in it; where there is none, the listing has exactly these lines. -/
theorem Nef.listing_one_line_per_instruction {ε : Type} (machine : Machine)
    (lookup : Text → Except ε (List Text)) {data : Bytes} {n : Nef} {is : List Instruction}
    (hp : Nef.parse data = .ok n) (hd : Script.disassemble n.script = .ok is) :
    ∃ plan rs text, (Plan.build (Plan.tokenSources n.tokens lookup) is).1 = .ok plan ∧
      List.Forall₂ (fun e r => Render.entry machine
        (addressWidth (is.map fun i => (i.address : Int))) false e = .ok r) plan rs ∧
      Render.listing machine (addressWidth (is.map fun i => (i.address : Int))) false plan =
        .ok text ∧
      text = (Text.ofString "\n").intercalate (rs.intersperse []) ∧
      List.Forall₂ (fun i r => r.OneLine ↔ ¬Comment.CallsAcrossLines n.tokens i) is rs ∧
      ((∀ i ∈ is, ¬Comment.CallsAcrossLines n.tokens i) →
        text.splitOn (.scalar '\n') = rs.intersperse [] ∧
          (text.splitOn (.scalar '\n')).length = 2 * is.length - 1) := by
  obtain ⟨hrow, -, hne⟩ := Script.row_of_disassemble hd
  have hs := Nef.script_length_lt hp
  have hcolumn :=
    Render.columnFits_addressWidth machine (Script.address_lt_of_disassemble hd hs)
  have htokens : ∀ token ∈ (Plan.tokenSources n.tokens lookup).context.tokens, token.Writable :=
    fun _ ht => Nef.writable_of_mem_tokens hp ht
  obtain ⟨plan, hplan, hw⟩ := Plan.exists_writable_entries hd hs htokens
  obtain ⟨rs, hrs⟩ := Render.exists_forall₂_entry false (Render.renderable_of_writable hcolumn hw)
  have hlines := Render.lines_of_isChain hrs (Plan.map_address hplan ▸ hrow.isChain_ne)
  have hservices : Comment.Context.OneLine
      ⟨[], (Plan.tokenSources n.tokens lookup).context.services⟩ := by
    -- the unifier must not compute the table of services
    simp only [Plan.tokenSources]
    exact Comment.Context.oneLine_current
  have hone := Render.forall₂_oneLine_iff hservices hrow.wellFormed hplan hrs
  refine ⟨plan, rs, _, (Plan.build_of_nothing_eq_ok_iff rfl rfl).mpr hplan, hrs, ?_, rfl, hone, ?_⟩
  · rw [Render.listing, hlines]
    rfl
  · intro hcalls
    have hlen := hone.length_eq
    have hrne : rs ≠ [] := by
      rintro rfl
      exact hne (List.length_eq_zero_iff.mp hlen)
    have hsplit := Render.splitOn_intersperse hrne (Render.oneLine_of_forall₂ hone hcalls)
    refine ⟨hsplit, ?_⟩
    rw [hsplit, List.length_intersperse, hlen]

def Nef.caller (method : String) (script : Bytes) : Nef :=
  ⟨"c", "", [⟨⟨List.replicate 20 0, rfl⟩, .text method, 0, false, 15⟩], script, 0⟩

theorem Nef.storable_caller {method : String} {script : Bytes}
    (hl : (Text.Utf8.encode method).length ≤ 32) (hu : method.toList.head? ≠ some '_')
    (hn : script ≠ []) (hs : script.length ≤ 524288) : (Nef.caller method script).Storable := by
  have hc : (Text.Utf8.encode "c").length ≤ 64 := by cbv
  have hend : "c".toList.getLast? ≠ some '\x00' := by decide
  have hsource : (Text.Utf8.encode "").length ≤ 256 := by cbv
  have hparameters : (0 : Int) ≤ 0 ∧ (0 : Int) < 65536 := by decide
  have hflags : (0 : Int) ≤ 15 ∧ (15 : Int) ≤ 15 := by decide
  refine ⟨hc, hend, hsource, Nat.le_of_ble_eq_true rfl, ?_, hn, hs⟩
  intro t ht
  obtain rfl := List.mem_singleton.mp ht
  exact ⟨⟨method, rfl, hl, hu⟩, hparameters, hflags⟩

theorem Nef.parse_caller {method : String} {script : Bytes}
    (h : (Nef.caller method script).Storable) :
    ∃ n, Nef.parse (Nef.caller method script).serialize = .ok n ∧ n.script = script ∧
      n.tokens = (Nef.caller method script).tokens :=
  ⟨_, Nef.parse_eq_ok_iff.mpr (Nef.isFile_serialize h), rfl, rfl⟩

/-- A line end in data is shown as an escape, so that three instructions have five lines. -/
theorem Nef.listing_one_line_per_instruction_data :
    ∃ data n is text, Nef.parse data = .ok n ∧ Script.disassemble n.script = .ok is ∧
      is.length = 3 ∧ (∀ i ∈ is, ¬Comment.CallsAcrossLines n.tokens i) ∧
      (∃ plan, (Plan.build (Plan.tokenSources n.tokens
          fun _ => (.ok [] : Except Empty (List Text))) is).1 = .ok plan ∧
        Render.listing (.ofDepth 1) (addressWidth (is.map fun i => (i.address : Int))) false plan =
          .ok text) ∧
      (text.splitOn (.scalar '\n')).length = 5 := by
  have hs : (Nef.caller "transfer" [0x0C, 1, 0x0A, 0x37, 0, 0]).Storable :=
    Nef.storable_caller (by cbv) (by decide) (by decide) (by decide)
  obtain ⟨n, hp, hscript, htokens⟩ := Nef.parse_caller hs
  have hd : Script.disassemble n.script =
      .ok [⟨0, .counted 0x0C "PUSHDATA1" 1, [0x0A]⟩, ⟨3, .sized 0x37 "CALLT" 2, [0, 0]⟩,
        ⟨6, .ret, []⟩] := by
    rw [hscript]
    cbv
  have hc : ∀ i, ¬Comment.CallsAcrossLines n.tokens i := by
    rintro i ⟨-, token, ht, hline⟩
    rw [htokens] at ht
    obtain rfl := List.mem_singleton.mp (List.mem_of_getElem? ht)
    exact hline (Text.oneLine_ofString.mpr (by decide))
  obtain ⟨plan, rs, text, hb, -, ht, -, -, hsplit⟩ :=
    Nef.listing_one_line_per_instruction (.ofDepth 1)
      (fun _ => (.ok [] : Except Empty (List Text))) hp hd
  exact ⟨_, n, _, text, hp, hd, rfl, fun i _ => hc i, ⟨plan, hb, ht⟩, (hsplit fun i _ => hc i).2⟩

/-- The name of a called method is written as it is: here it ends the line of the call and
brings in the line of an instruction that the script does not have. -/
theorem Nef.listing_forged_line :
    ∃ data n is plan text, Nef.parse data = .ok n ∧ Script.disassemble n.script = .ok is ∧
      is.length = 2 ∧
      (Plan.build (Plan.tokenSources n.tokens
        fun _ => (.ok [] : Except Empty (List Text))) is).1 = .ok plan ∧
      Render.listing (.ofDepth 1) (addressWidth (is.map fun i => (i.address : Int))) false plan =
        .ok text ∧
      text.splitOn (.scalar '\n') =
        [Text.ofString "0 CALLT 00-00 # 0x0000000000000000000000000000000000000000.a", [],
          Text.ofString "3 ABORT # (0 parameters, does not have return value, All call flags)", [],
          Text.ofString "3 RET"] := by
  have hs : (Nef.caller "a\n\n3 ABORT #" [0x37, 0, 0, 0x40]).Storable :=
    Nef.storable_caller (by cbv) (by decide) (by decide) (by decide)
  obtain ⟨n, hp, hscript, htokens⟩ := Nef.parse_caller hs
  have hd : Script.disassemble n.script =
      .ok [⟨0, .sized 0x37 "CALLT" 2, [0, 0]⟩, ⟨3, .ret, []⟩] := by
    rw [hscript]
    cbv
  let comment := Text.ofString ("0x0000000000000000000000000000000000000000.a\n\n3 ABORT #" ++
    " (0 parameters, does not have return value, All call flags)")
  have hdashed : Bytes.dashed [0, 0] = "00-00" := by cbv
  have hcall : Plan.IsEntryOf ⟨(Nef.caller "a\n\n3 ABORT #" [0x37, 0, 0, 0x40]).tokens,
      ServiceTable.current⟩ ⟨0, .sized 0x37 "CALLT" 2, [0, 0]⟩
      (.instruction 0 "CALLT" "00-00" comment) := by
    refine ⟨comment, by decide +kernel, ?_⟩
    rw [hdashed]
    rfl
  have hret : Plan.IsEntryOf ⟨(Nef.caller "a\n\n3 ABORT #" [0x37, 0, 0, 0x40]).tokens,
      ServiceTable.current⟩ ⟨3, .ret, []⟩ (.instruction 3 "RET" "" []) :=
    ⟨[], by decide +kernel, rfl⟩
  refine ⟨_, n, _, [.instruction 0 "CALLT" "00-00" comment, .instruction 3 "RET" "" []], _, hp, hd,
    rfl, ?_, rfl, by decide +kernel⟩
  rw [Plan.build_of_nothing_eq_ok_iff rfl rfl, Plan.tokenSources, htokens]
  exact .cons hcall (.cons hret .nil)

end NeoListing

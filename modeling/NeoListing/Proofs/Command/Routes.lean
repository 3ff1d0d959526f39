import NeoListing.Proofs.Command.Stages
import NeoListing.Proofs.Contract.DeployedState
import NeoListing.Proofs.Contract.NefRoundTrip
import NeoListing.Proofs.File.Removal
import NeoListing.Proofs.Listing.PlainListing
import NeoListing.Proofs.Listing.PlanReference

/-! # Contracts from files and from nodes

A contract that is read from a file with a manifest beside it and the same contract in the state
that a node keeps of it have the same script, tokens and names, so runs list them alike.
-/

namespace NeoListing

structure FileTree.HoldsContract (files : FileTree) (machine : Machine) (p : Path) (data : Bytes)
    (manifest : Json) : Prop where
  contract : files.read p = .ok data
  no_archive : ∃ q, p.withSuffix ".nefdbgnfo" = .ok q ∧ files.isFile q = .ok false
  no_debug : ∃ q, p.withSuffix ".debug.json" = .ok q ∧ files.isFile q = .ok false
  manifest : ∃ q content s, p.withSuffix ".manifest.json" = .ok q ∧ files.read q = .ok content ∧
    Text.fileText content = .ok s ∧ Json.read machine.depth s = .ok manifest

section Files

variable {files : FileTree} {machine : Machine} {p : Path} {data : Bytes} {manifest : Json}

theorem DebugInfo.load_of_holdsContract (h : files.HoldsContract machine p data manifest) :
    DebugInfo.load machine files p = .ok none := by
  obtain ⟨archive, ha, hna⟩ := h.no_archive
  obtain ⟨plain, hp, hnp⟩ := h.no_debug
  have hc : ∀ q, files.isFile q = .ok false → DebugInfo.content? files q = .ok none := by
    intro q hq
    rw [DebugInfo.content?, hq]
  have hs : DebugInfo.sideText files p = .ok none := by
    simp only [DebugInfo.sideText, DebugInfo.suffixed, ha, hp, bind, Except.bind, hc archive hna,
      hc plain hnp]
    rfl
  rw [DebugInfo.load, hs]
  rfl

theorem Manifest.load_of_holdsContract {starts : Table Int Text}
    (h : files.HoldsContract machine p data manifest) (hm : Manifest.starts manifest = .ok starts) :
    Manifest.load machine files p = .ok (starts, []) := by
  obtain ⟨q, content, s, hq, hc, hs, hj⟩ := h.manifest
  have hr : Manifest.read machine content = .ok starts := by
    simp only [Manifest.read, hs, hj, hm]
  simp only [Manifest.load, hq, FileTree.isFile_of_read hc, Manifest.readFile, hc, hr,
    Manifest.accept]

theorem Contract.load_file {source : Text} {n : Nef}
    (h : files.HoldsContract machine (Path.ofText source) data manifest)
    (hn : Nef.parse data = .ok n) (session : Node.Session) :
    (Contract.load files session source none).result =
      .ok ⟨n.script, n.tokens, some (Path.ofText source), []⟩ := by
  have hf : Contract.namesFile files source = true := by
    rw [Contract.namesFile, FileTree.isFile_of_read h.contract]
  rw [Contract.load, Contract.loadLocal, if_pos hf]
  simp only [Contract.ofFile, h.contract, hn]

end Files

theorem Contract.load_deployed {files : FileTree} {session : Node.Session} {source url : Text}
    {state : Json} {contract : Contract} (hu : url ≠ [])
    (hs : (session.contractState ⟨source, url⟩).1 = .ok state)
    (hc : Contract.ofState state = .ok contract) :
    (Contract.load files session source (some url)).result = .ok contract := by
  simp only [Contract.load, if_neg hu, Contract.loadDeployed, hs, hc]

namespace Command
open Outcome

def namedListing (machine : Machine) (colours : Bool) (script : Bytes) (tokens : List MethodToken)
    (starts : Table Int Text) : Except Failure (List Text) := do
  let instructions ← (Script.disassemble script).mapError .decode
  let entries ← (Plan.reference (Plan.namedEntriesAt starts) ⟨tokens, ServiceTable.current⟩
    instructions).mapError .comment
  let width := addressWidth (instructions.map (fun i => (i.address : Int)))
  (Render.lines machine width colours entries).mapError .render

theorem run_loadContract {files : FileTree} {source : Text} {url : Option Text} {t : Trail}
    {contract : Contract} (h : (Contract.load files t.session source url).result = .ok contract) :
    ∃ t', (loadContract files source url).run.run t = (.ok contract, t') := by
  rw [run_loadContract_eq, h]
  exact ⟨_, rfl⟩

section Stages

variable {world : World} {contract : Contract} {starts : Table Int Text}

theorem run_annotations_file {p : Path} {data : Bytes} {manifest : Json}
    (hp : contract.path = some p) (h : world.files.HoldsContract world.machine p data manifest)
    (hm : Manifest.starts manifest = .ok starts) (t : Trail) :
    ∃ t', (annotations world contract).run.run t = (.ok (none, starts), t') := by
  obtain ⟨notices, ha⟩ := annotations_of_unavailable hp (.inl (DebugInfo.load_of_holdsContract h))
  simp only [ha, loadManifest, Manifest.load_of_holdsContract h hm]
  exact ⟨_, rfl⟩

theorem run_annotations_node (world : World) (hp : contract.path = none) (t : Trail) :
    (annotations world contract).run.run t = (.ok (none, contract.methodNames), t) := by
  rw [annotations_of_no_path hp]
  rfl

theorem run_plan (world : World) (contract : Contract) (starts : Table Int Text)
    (is : List Instruction) (t : Trail) :
    ∃ t', (plan world contract none starts is).run.run t =
      ((Plan.reference (Plan.namedEntriesAt starts) ⟨contract.tokens, ServiceTable.current⟩
        is).mapError .comment, t') := by
  let built := Plan.build (⟨none, starts, ⟨contract.tokens, ServiceTable.current⟩,
    world.files.sourceTexts⟩ : Plan.Sources FileError) is
  have hr : (plan world contract none starts is).run.run t =
      (attempt planFailure built.1).run.run (t.noted built.2.notices) := rfl
  have hb : built.1 = _ := Plan.build_of_names is
  rw [hr, run_attempt, hb]
  refine ⟨_, Prod.ext ?_ rfl⟩
  cases Plan.reference (Plan.namedEntriesAt starts) ⟨contract.tokens, ServiceTable.current⟩ is <;>
    rfl

theorem run_listing {t t' : Trail}
    (h : (annotations world contract).run.run t = (.ok (none, starts), t')) (colours : Bool) :
    ((listing world colours contract).run.run t).1 =
      namedListing world.machine colours contract.script contract.tokens starts := by
  rw [listing, run_bind_of_ok h, namedListing]
  cases hd : Script.disassemble contract.script with
  | error e => rfl
  | ok is =>
    obtain ⟨t₂, hp⟩ := run_plan world contract starts is (t'.noted [.decoded is.length])
    let width := addressWidth (is.map fun i => (i.address : Int))
    change ((plan world contract none starts is >>= fun entries =>
        attempt .render (Render.lines world.machine width colours entries)).run.run _).1 =
      ((Plan.reference (Plan.namedEntriesAt starts) ⟨contract.tokens, ServiceTable.current⟩
        is).mapError .comment >>= fun entries =>
          (Render.lines world.machine width colours entries).mapError .render)
    cases hr : Plan.reference (Plan.namedEntriesAt starts) ⟨contract.tokens, ServiceTable.current⟩
        is with
    | error e =>
      rw [hr] at hp
      rw [run_bind_of_error hp]
      rfl
    | ok entries =>
      rw [hr] at hp
      rw [run_bind_of_ok hp, run_attempt]
      rfl

end Stages

theorem writable_of_mem_namedEntriesAt {names : Table Int Text} {i : Instruction} {comment : Text}
    (hi : Text.Writable i.address) {e : Entry} (he : e ∈ Plan.namedEntriesAt names i comment) :
    e.Writable := by
  rcases List.mem_append.mp he with he | he
  · obtain ⟨name, -, rfl⟩ := Option.map_eq_some_iff.mp (Option.mem_toList.mp he)
    trivial
  · obtain rfl := List.mem_singleton.mp he
    exact hi

theorem namedListing_defined (machine : Machine) {script : Bytes} {is : List Instruction}
    (h : Script.disassemble script = .ok is) (hs : script.length < Comment.addressLimit)
    (colours : Bool) {tokens : List MethodToken} (ht : ∀ token ∈ tokens, token.Writable)
    (starts : Table Int Text) :
    ∃ lines, namedListing machine colours script tokens starts = .ok lines := by
  have hlimit := Script.address_lt_of_disassemble h hs
  have hcalls : ∀ i, ¬Comment.CallsUnwritable ⟨tokens, ServiceTable.current⟩ i :=
    Comment.not_callsUnwritable ht
  obtain ⟨comments, hc⟩ := (Plan.exists_comments_iff h hs).mpr fun i _ => hcalls i
  have hw : ∀ e ∈ (List.zipWith (Plan.namedEntriesAt starts) is comments).flatten, e.Writable := by
    intro e he
    obtain ⟨group, hg, he⟩ := List.mem_flatten.mp he
    rw [← List.map_uncurry_zip_eq_zipWith] at hg
    obtain ⟨⟨i, comment⟩, hi, rfl⟩ := List.mem_map.mp hg
    exact writable_of_mem_namedEntriesAt
      (Comment.writable_address (hlimit i (List.of_mem_zip hi).1)) he
  obtain ⟨lines, hl⟩ := (Render.exists_linesFrom_iff colours none).mpr
    (Render.renderable_of_writable (Render.columnFits_addressWidth machine hlimit) hw)
  refine ⟨lines, ?_⟩
  simp only [namedListing, h, Plan.reference, hc, Render.lines, Except.map, Except.mapError, bind,
    Except.bind, hl]

def namedOutcome (machine : Machine) (args : Arguments) (settings : Settings) (script : Bytes)
    (tokens : List MethodToken) (starts : Table Int Text) : Except Failure (List Text) :=
  if args.methodTokens then (MethodToken.list tokens).mapError .tokens
  else namedListing machine (!(args.disableColours || settings.disableColours)) script tokens starts

section Body

variable {world : World} {args : Arguments} {settings : Settings} {t : Trail}
  {starts : Table Int Text}

theorem run_body {contract : Contract}
    (hl : (Contract.load world.files t.session args.input (nodeUrl args settings)).result =
      .ok contract)
    (ha : ∀ t, ∃ t', (annotations world contract).run.run t = (.ok (none, starts), t')) :
    ((body world args settings).run.run t).1 =
      namedOutcome world.machine args settings contract.script contract.tokens starts := by
  obtain ⟨t₁, h₁⟩ := run_loadContract hl
  obtain ⟨t₂, h₂⟩ := ha t₁
  rw [body, run_bind_of_ok h₁, namedOutcome]
  cases args.methodTokens with
  | true => exact congrArg Prod.fst (run_attempt _ _ t₁)
  | false => exact run_listing h₂ _

theorem run_body_file {data : Bytes} {n : Nef} {manifest : Json} (hrpc : args.rpc = false)
    (h : world.files.HoldsContract world.machine (Path.ofText args.input) data manifest)
    (hn : Nef.parse data = .ok n) (hm : Manifest.starts manifest = .ok starts)
    (settings : Settings) (t : Trail) :
    ((body world args settings).run.run t).1 =
      namedOutcome world.machine args settings n.script n.tokens starts := by
  have hnone : nodeUrl args settings = none := by
    rw [nodeUrl, hrpc]
    rfl
  have hl := Contract.load_file h hn t.session
  rw [← hnone] at hl
  exact run_body hl (run_annotations_file rfl h hm)

theorem run_body_node {url : Text} {state : Json} {script : Bytes} {tokens : List MethodToken}
    (hurl : nodeUrl args settings = some url) (hu : url ≠ [])
    (hs : (t.session.contractState ⟨args.input, url⟩).1 = .ok state)
    (hc : Contract.ofState state = .ok ⟨script, tokens, none, starts⟩) :
    ((body world args settings).run.run t).1 =
      namedOutcome world.machine args settings script tokens starts := by
  have hl : (Contract.load world.files t.session args.input (some url)).result = _ :=
    Contract.load_deployed hu hs hc
  rw [← hurl] at hl
  exact run_body hl (fun t => ⟨t, run_annotations_node world rfl t⟩)

end Body

/-- Written to a file and shown by a node, a contract reads the same, and runs that get it in
either way come to the same lines: those of its listing if its script disassembles. -/
theorem routes_agree {n : Nef} {manifest state : Json} {starts : Table Int Text}
    (hn : n.Storable) (hs : Contract.IsShownAs n.script n.tokens manifest state)
    (hm : Manifest.starts manifest = .ok starts) :
    (∃ m, Nef.parse n.serialize = .ok m ∧
      Contract.ofState state = .ok ⟨m.script, m.tokens, none, starts⟩) ∧
    ∀ (world world' : World) (args args' : Arguments) (settings : Settings) (t t' : Trail)
      (url : Text), world'.machine = world.machine →
      world.files.HoldsContract world.machine (Path.ofText args.input) n.serialize manifest →
      args.rpc = false → nodeUrl args' settings = some url → url ≠ [] →
      (t'.session.contractState ⟨args'.input, url⟩).1 = .ok state →
      args'.methodTokens = args.methodTokens → args'.disableColours = args.disableColours →
      ((body world args settings).run.run t).1 = ((body world' args' settings).run.run t').1 ∧
      (args.methodTokens = false → ∀ is, Script.disassemble n.script = .ok is →
        ∃ lines, ((body world args settings).run.run t).1 = .ok lines) := by
  have hp := Nef.parse_eq_ok_iff.mpr (Nef.isFile_serialize hn)
  have hc := Contract.ofState_of_isShownAs hs (fun t ht => (hn.tokens t ht).flags) hm
  refine ⟨⟨_, hp, hc⟩, ?_⟩
  intro world world' args args' settings t t' url hmachine hf hrpc hurl hu hstate htokens hcolours
  have hfile := run_body_file hrpc hf hp hm settings t
  have hnode : ((body world' args' settings).run.run t').1 =
      namedOutcome world'.machine args' settings n.script n.tokens starts :=
    run_body_node hurl hu hstate hc
  constructor
  · rw [hfile, hnode, namedOutcome, namedOutcome, hmachine, htokens, hcolours]
  · intro hlist is hd
    have hlimit : n.script.length < Comment.addressLimit :=
      Nat.lt_of_le_of_lt hn.script_length (Nat.lt_trans (by decide)
        (Comment.pow_lt_addressLimit (show 3 ≤ 32 by decide)))
    rw [hfile, namedOutcome, hlist]
    exact namedListing_defined world.machine hd hlimit _
      (fun token ht => Nef.writable_of_mem_tokens hp ht) _

def sampleContract : Nef :=
  ⟨"neon", "", [⟨⟨0x01 :: List.replicate 19 0xAB, rfl⟩, .text "transfer", 4, true, 7⟩],
    [0x37, 0x00, 0x00, 0x40], 0⟩

def sampleManifest : Json :=
  .object [("abi", .object [("methods", .array [.object [("name", .text "main"),
    ("offset", .int 0)]])])]

def sampleManifestText : String :=
  "\x7b\"abi\":\x7b\"methods\":[\x7b\"name\":\"main\",\"offset\":0\x7d]\x7d\x7d"

def sampleFiles (data : Bytes) : FileTree :=
  [([Text.Utf8.encode "a.nef"], .file data),
    ([Text.Utf8.encode "a.manifest.json"], .file (Text.Utf8.encode sampleManifestText))]

def sampleState : Json :=
  .object [("nef", .object [("script", .text "NwAAQA=="), ("tokens", .array [.object [
      ("hash", .text "0xababababababababababababababababababab01"), ("method", .text "transfer"),
      ("paramcount", .int 4), ("hasreturnvalue", .bool true),
      ("callflags", .text "WriteStates, ReadOnly")]])]),
    ("manifest", sampleManifest)]

theorem holdsContract_sampleFiles (data : Bytes) :
    (sampleFiles data).HoldsContract (.ofDepth 5) (Path.ofText "a.nef") data sampleManifest := by
  refine ⟨by cbv, ⟨_, rfl, by cbv⟩, ⟨_, rfl, by cbv⟩, ⟨_, _, _, rfl, by cbv, by cbv, by cbv⟩⟩

theorem isShownAs_sampleState :
    Contract.IsShownAs sampleContract.script sampleContract.tokens sampleManifest sampleState := by
  refine ⟨⟨_, _, rfl, by cbv, rfl, ?_⟩, rfl⟩
  exact .cons ⟨by cbv, by cbv, by cbv, by cbv, ⟨"WriteStates, ReadOnly", by cbv, by cbv⟩⟩ .nil

theorem routes_agree_sample :
    let args : Arguments := ⟨"a.nef", false, false, false, none, false⟩
    let args' : Arguments := ⟨"0x01", false, false, true, some "http://node", true⟩
    let settings : Settings := ⟨false, "", 30⟩
    let fetched : Node.Session := ⟨[(⟨"0x01", "http://node"⟩, sampleState)], [], []⟩
    let world : World :=
      ⟨[], [], sampleFiles sampleContract.serialize, [], .ofDepth 5, fun _ => true⟩
    let world' : World := ⟨[], [], [], [], .ofDepth 5, fun _ => true⟩
    world.files.HoldsContract world.machine (Path.ofText "a.nef") sampleContract.serialize
      sampleManifest ∧
    (∃ m, Nef.parse sampleContract.serialize = .ok m ∧
      Contract.ofState sampleState = .ok ⟨m.script, m.tokens, none, [(0, "main")]⟩) ∧
    ((body world args settings).run.run (.start world)).1 =
      ((body world' args' settings).run.run ⟨fetched, [], []⟩).1 ∧
    ∃ lines, ((body world args settings).run.run (.start world)).1 = .ok lines := by
  have hn : sampleContract.Storable := by
    refine ⟨by decide +kernel, by decide +kernel, by decide +kernel, by decide, ?_, by decide,
      by decide⟩
    intro t ht
    obtain rfl := List.mem_singleton.mp ht
    exact ⟨⟨"transfer", rfl, by decide +kernel, by decide +kernel⟩, by decide, by decide⟩
  have hm : Manifest.starts sampleManifest = .ok [(0, Text.ofString "main")] := rfl
  have hf := holdsContract_sampleFiles sampleContract.serialize
  have hd : (Script.disassemble sampleContract.script).toOption.isSome = true := by decide +kernel
  obtain ⟨is, hd⟩ := Option.isSome_iff_exists.mp hd
  intro args args' settings fetched world world'
  have hfetched : (fetched.contractState ⟨"0x01", "http://node"⟩).1 = .ok sampleState := rfl
  obtain ⟨hload, hruns⟩ := routes_agree hn isShownAs_sampleState hm
  obtain ⟨hsame, hlines⟩ := hruns world world' args args' settings (.start world)
    ⟨fetched, [], []⟩ "http://node" rfl hf rfl rfl (by decide) hfetched rfl rfl
  exact ⟨hf, hload, hsame, hlines rfl is (toOption_eq_some_iff.mp hd)⟩

end Command

end NeoListing

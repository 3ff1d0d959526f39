import NeoListing.Proofs.Command.AllOrNothing

/-! # Where a run looks for its contract

A run that is to ask a node, and has an address for it, does not look at files: only arguments,
environment and what comes of its requests count. Any other run makes no request.
The switch alone does not decide it. With an empty address in the environment, and no other in
the arguments, a run that is to ask a node takes its input from a file or from the text itself.
-/

namespace NeoListing

section NoInfo

variable {ε : Type} (names : Table Int Text) (context : Comment.Context)
  (lookup lookup' : Text → Except ε (List Text))

theorem Plan.groups_of_no_info (marks : Landmarks) (is : List Instruction) :
    Plan.groups ⟨none, names, context, lookup⟩ marks is =
      Plan.groups ⟨none, names, context, lookup'⟩ marks is := by
  induction is with
  | nil => rfl
  | cons i rest ih =>
    have hg : Plan.group ⟨none, names, context, lookup⟩ marks i =
        Plan.group ⟨none, names, context, lookup'⟩ marks i := rfl
    rw [Plan.groups, Plan.groups, hg, ih]

/-- Without debug information no document is looked up. -/
theorem Plan.build_of_no_info (is : List Instruction) :
    Plan.build ⟨none, names, context, lookup⟩ is =
      Plan.build ⟨none, names, context, lookup'⟩ is := by
  have hg := Plan.groups_of_no_info names context lookup lookup' (Landmarks.ofMethodNames names) is
  simp only [Plan.build, Plan.landmarks, hg]

end NoInfo

theorem Contract.path_of_ofState {state : Json} {contract : Contract}
    (h : Contract.ofState state = .ok contract) : contract.path = none := by
  unfold Contract.ofState at h
  split at h
  · cases h
  · simp only [Outcome.bind_eq_ok_iff] at h
    obtain ⟨_, -, _, -, _, -, _, -, _, -, _, -, h⟩ := h
    obtain rfl := Except.ok.inj h
    rfl

theorem Contract.path_of_loadDeployed {session : Node.Session} {source url : Text}
    {contract : Contract} (h : (Contract.loadDeployed session source url).result = .ok contract) :
    contract.path = none := by
  simp only [Contract.loadDeployed] at h
  split at h
  · cases h
  · split at h
    · cases h
    next hc =>
      obtain rfl := Except.ok.inj h
      exact Contract.path_of_ofState hc

namespace Command
open Outcome

/-! ## The address of a node -/

/-- Some address of a node is given: in the arguments, in the environment or, where that says
nothing, by default. -/
def HasAddress (args : Arguments) (env : Environment) : Prop :=
  (∃ url, args.rpcUrl = some url ∧ url ≠ "") ∨ env.get? "DUMPNEF_RPC_URL" ≠ some ""

theorem nodeUrl_of_load {env : Environment} {settings : Settings}
    (h : Settings.load env = .ok settings) :
    settings.nodeUrl = (env.get? "DUMPNEF_RPC_URL").getD Settings.defaultNode := by
  unfold Settings.load at h
  simp only at h
  split at h
  · cases h
  · obtain rfl := Except.ok.inj h
    rfl

theorem nodeUrl_eq_empty_iff {env : Environment} {settings : Settings}
    (h : Settings.load env = .ok settings) :
    settings.nodeUrl = "" ↔ env.get? "DUMPNEF_RPC_URL" = some "" := by
  rw [nodeUrl_of_load h]
  cases env.get? "DUMPNEF_RPC_URL" with
  | none =>
    have hd : (Settings.defaultNode : Text) ≠ "" := by decide
    simp [hd]
  | some url => simp

section Address

variable {args : Arguments} {env : Environment} {settings : Settings}

theorem nodeUrl_of_hasAddress (h : Settings.load env = .ok settings) (hr : args.rpc = true)
    (ha : HasAddress args env) : ∃ url, nodeUrl args settings = some url ∧ url ≠ [] := by
  have hn := nodeUrl_eq_empty_iff h
  unfold nodeUrl
  rw [hr]
  rcases ha with ⟨url, hu, hne⟩ | he
  · simp only [hu, hne]
    exact ⟨_, rfl, hne⟩
  · cases args.rpcUrl with
    | none => exact ⟨_, rfl, fun hs => he (hn.mp hs)⟩
    | some url =>
      refine ⟨_, rfl, ?_⟩
      by_cases hu : url = ""
      · rw [if_pos hu]
        exact fun hs => he (hn.mp hs)
      · rw [if_neg hu]
        exact hu

theorem nodeUrl_of_not_hasAddress (h : Settings.load env = .ok settings)
    (ha : ¬(args.rpc = true ∧ HasAddress args env)) :
    nodeUrl args settings = none ∨ nodeUrl args settings = some [] := by
  have hn := nodeUrl_eq_empty_iff h
  unfold nodeUrl
  cases hr : args.rpc with
  | false => exact .inl rfl
  | true =>
    have ha : ¬HasAddress args env := fun hg => ha ⟨hr, hg⟩
    simp only [HasAddress, not_or, not_not, not_exists, not_and] at ha
    have hs := hn.mpr ha.2
    cases hu : args.rpcUrl with
    | none => exact .inr (by simp [hs, Text.ofString])
    | some url =>
      have hz : url = "" := ha.1 url hu
      exact .inr (by simp [hz, hs, Text.ofString])

end Address

/-! ## Runs that ask a node -/

section Node

variable {world world' : World}

theorem loadContract_of_url {files files' : FileTree} {url : Text} (hu : url ≠ [])
    (source : Text) :
    loadContract files source (some url) = loadContract files' source (some url) := by
  simp only [loadContract, Contract.load, if_neg hu]

theorem path_of_loadContract {files : FileTree} {url source : Text} {contract : Contract}
    {t t' : Trail} (hu : url ≠ [])
    (h : (loadContract files source (some url)).run.run t = (.ok contract, t')) :
    contract.path = none := by
  rw [run_loadContract_eq] at h
  have hr := mapError_eq_ok_iff.mp (congrArg Prod.fst h)
  simp only [Contract.load, if_neg hu] at hr
  exact Contract.path_of_loadDeployed hr

theorem listing_of_no_path (hm : world'.machine = world.machine) {contract : Contract}
    (h : contract.path = none) (colours : Bool) :
    listing world' colours contract = listing world colours contract := by
  have hp : ∀ is, plan world' contract none contract.methodNames is =
      plan world contract none contract.methodNames is := by
    intro is
    have hb := Plan.build_of_no_info contract.methodNames ⟨contract.tokens, ServiceTable.current⟩
      world'.files.sourceTexts world.files.sourceTexts is
    simp only [plan, hb]
  simp only [listing, annotations_of_no_path h, pure_bind, hp, hm]

theorem run_body_of_url (hm : world'.machine = world.machine) {args : Arguments}
    {settings : Settings} {url : Text} (hn : nodeUrl args settings = some url) (hu : url ≠ [])
    (t : Trail) :
    (body world' args settings).run.run t = (body world args settings).run.run t := by
  rw [body, body, hn, loadContract_of_url hu]
  rcases hl : (loadContract world.files args.input (some url)).run.run t with ⟨e | contract, t'⟩
  · rw [run_bind_of_error hl, run_bind_of_error hl]
  · have hp := path_of_loadContract hu hl
    rw [run_bind_of_ok hl, run_bind_of_ok hl, listing_of_no_path hm hp]

end Node

/-! ## Runs that do not -/

section Local

variable {files : FileTree} {url : Option Text}

theorem load_of_no_url (hu : url = none ∨ url = some []) (session : Node.Session)
    (source : Text) :
    Contract.load files session source url = Contract.loadLocal files session source := by
  rcases hu with rfl | rfl <;> rfl

theorem quiet_loadContract (hu : url = none ∨ url = some []) (source : Text) :
    Quiet (loadContract files source url) := by
  let loading := Contract.loadLocal files (Node.Session.new []) source
  refine ⟨loading.result.mapError .input, loading.notices, fun t => ?_⟩
  rw [run_loadContract_eq, load_of_no_url hu]
  by_cases hf : Contract.namesFile files source = true
  · simp only [loading, Contract.loadLocal, if_pos hf, Trail.noted]
  · simp only [loading, Contract.loadLocal, if_neg hf, Trail.noted]

theorem quiet_body {world : World} {args : Arguments} {settings : Settings}
    (hu : nodeUrl args settings = none ∨ nodeUrl args settings = some []) :
    Quiet (body world args settings) := by
  refine (quiet_loadContract hu args.input).bind fun contract => ?_
  cases args.methodTokens with
  | true => exact quiet_attempt _ _
  | false => exact quiet_listing world _ contract

end Local

/-! ## Whole runs -/

section Whole

variable {world world' : World} {args : Arguments} {settings : Settings}

theorem start_congr (h : world'.exchanges = world.exchanges) :
    Trail.start world' = Trail.start world := by
  rw [Trail.start, Trail.start, h]

theorem body_congr (hf : world'.files = world.files) (hm : world'.machine = world.machine) :
    body world' args settings = body world args settings := by
  simp only [body, listing, annotations, loadManifest, plan, hf, hm]

theorem writeLines_congr (hc : world'.encodes = world.encodes) (lines : List Text) :
    writeLines world' lines = writeLines world lines := by
  induction lines with
  | nil => rfl
  | cons line rest ih => simp only [writeLines, write, hc, ih]

theorem run_bind_writeLines_congr (hc : world'.encodes = world.encodes) {t : Trail}
    (hb : (body world' args settings).run.run t = (body world args settings).run.run t) :
    (body world' args settings >>= writeLines world').run.run t =
      (body world args settings >>= writeLines world).run.run t := by
  rcases hr : (body world args settings).run.run t with ⟨failure | lines, t'⟩
  · rw [run_bind_of_error (hb.trans hr), run_bind_of_error hr]
  · rw [run_bind_of_ok (hb.trans hr), run_bind_of_ok hr, writeLines_congr hc]

/-- The result of a quiet run, its notices and its output do not depend on the session. -/
theorem run_bind_writeLines_of_quiet (h : Quiet (body world args settings)) :
    ∃ result notices output, ∀ session,
      (body world args settings >>= writeLines world).run.run ⟨session, [], []⟩ =
        (result, ⟨session, notices, output⟩) := by
  obtain ⟨r, notices, hb⟩ := h
  cases r with
  | error failure =>
    refine ⟨.error failure, notices, [], fun session => ?_⟩
    rw [run_bind_of_error (hb _)]
    rfl
  | ok lines =>
    rcases accepts_or_stopsAfter world lines with ha | ⟨before, ha⟩
    · refine ⟨.ok (), notices, Render.written lines, fun session => ?_⟩
      rw [run_bind_of_ok (hb _), run_writeLines ha]
      rfl
    · refine ⟨.error .unwritable, notices, Render.written before, fun session => ?_⟩
      rw [run_bind_of_ok (hb _), run_writeLines_of_stopsAfter ha]
      rfl

/-- A report keeps nothing of the session but its requests. -/
theorem report_congr (level : Nat) (result : Except Failure Unit) {session session' : Node.Session}
    (h : session'.posts = session.posts) (notices : List Notice) (output : Text) :
    report level result ⟨session', notices, output⟩ =
      report level result ⟨session, notices, output⟩ := by
  simp only [report, h]

theorem posts_report (level : Nat) (result : Except Failure Unit) (t : Trail) :
    (report level result t).posts = t.session.posts := by
  unfold report
  split
  · rfl
  · split <;> rfl

theorem runWith_of_address (he : world'.environment = world.environment)
    (hm : world'.machine = world.machine) (hc : world'.encodes = world.encodes)
    (hx : world'.exchanges = world.exchanges) (hrpc : args.rpc = true)
    (ha : HasAddress args world.environment) : runWith world' args = runWith world args := by
  unfold runWith
  rw [he, start_congr hx]
  cases hs : Settings.load world.environment with
  | error e => rfl
  | ok settings =>
    obtain ⟨url, hn, hu⟩ := nodeUrl_of_hasAddress hs hrpc ha
    have hb := run_body_of_url hm hn hu (.start world)
    simp only [run_bind_writeLines_congr hc hb]

theorem runWith_of_no_address (he : world'.environment = world.environment)
    (hm : world'.machine = world.machine) (hc : world'.encodes = world.encodes)
    (hf : world'.files = world.files)
    (ha : ¬(args.rpc = true ∧ HasAddress args world.environment)) :
    runWith world' args = runWith world args ∧ (runWith world args).posts = [] := by
  unfold runWith
  rw [he]
  cases hs : Settings.load world.environment with
  | error e => exact ⟨report_congr _ _ rfl _ _, posts_report _ _ _⟩
  | ok settings =>
    have hq : Quiet (body world args settings) :=
      quiet_body (nodeUrl_of_not_hasAddress hs ha)
    obtain ⟨result, notices, output, hr⟩ := run_bind_writeLines_of_quiet hq
    have hr' := hr (Trail.start world').session
    rw [← run_bind_writeLines_congr hc (by rw [body_congr hf hm])] at hr'
    have hrun : (body world args settings >>= writeLines world).run.run (.start world) =
      (result, ⟨(Trail.start world).session, notices, output⟩) := hr _
    have hrun' : (body world' args settings >>= writeLines world').run.run (.start world') =
      (result, ⟨(Trail.start world').session, notices, output⟩) := hr'
    simp only [hrun, hrun']
    exact ⟨report_congr _ _ rfl _ _, posts_report _ _ _⟩

theorem run_of_help_congr (hc : world'.encodes = world.encodes)
    (ha : world'.arguments = world.arguments)
    (h : Arguments.parse world.arguments = .error .help) :
    run world' = run world ∧ (run world).posts = [] := by
  simp only [run, ha, h]
  cases he : world.encodes Arguments.helpText with
  | true =>
    rw [run_write_of_encodes he, run_write_of_encodes (by rw [hc, he])]
    exact ⟨report_congr _ _ rfl _ _, posts_report _ _ _⟩
  | false =>
    rw [run_write_of_refused he, run_write_of_refused (by rw [hc, he])]
    exact ⟨report_congr _ _ rfl _ _, posts_report _ _ _⟩

end Whole

/-- Two runs with the same arguments and the same environment, on one machine and to one kind of
output. If they are to ask a node that has an address, then they end alike whenever the same comes
of their requests, whatever files there are. In all other cases they end alike whenever they see
the same files, and make no request. -/
theorem run_source_choice {world world' : World} (ha : world'.arguments = world.arguments)
    (he : world'.environment = world.environment) (hm : world'.machine = world.machine)
    (hc : world'.encodes = world.encodes) :
    ((∀ args, Arguments.parse world.arguments = .ok args →
        args.rpc = true ∧ HasAddress args world.environment) →
      world'.exchanges = world.exchanges → run world' = run world) ∧
    ((∀ args, Arguments.parse world.arguments = .ok args →
        ¬(args.rpc = true ∧ HasAddress args world.environment)) →
      world'.files = world.files → run world' = run world ∧ (run world).posts = []) := by
  rcases hp : Arguments.parse world.arguments with (_ | e) | args
  · have hhelp := run_of_help_congr hc ha hp
    exact ⟨fun _ _ => hhelp.1, fun _ _ => hhelp⟩
  · simp only [run, ha, hp]
    exact ⟨fun _ _ => rfl, fun _ _ => ⟨rfl, trivial⟩⟩
  · simp only [run, ha, hp]
    constructor
    · intro h hx
      obtain ⟨hrpc, haddr⟩ := h args rfl
      exact runWith_of_address he hm hc hx hrpc haddr
    · intro h hf
      exact runWith_of_no_address he hm hc hf (h args rfl)

/-- A file that is called like the input does not matter to a run that asks a node, and what a
node would say does not matter to one that was not told to ask. -/
theorem run_source_choice_sample :
    let asking (files : FileTree) : World :=
      ⟨["QA==", "--rpc"], [], files, [fun _ => .refused "down"], .ofDepth 1, fun _ => true⟩
    let reading (exchanges : List Node.Exchange) : World :=
      ⟨["QA=="], [("DUMPNEF_RPC_URL", "")], [], exchanges, .ofDepth 1, fun _ => true⟩
    run (asking [([Text.Utf8.encode "QA=="], .file [])]) = run (asking []) ∧
      run (reading [fun _ => .refused "down"]) = run (reading []) ∧
      (run (reading [])).posts = [] := by
  intro asking reading
  have hasking : Arguments.parse ["QA==", "--rpc"] =
      .ok ⟨"QA==", false, false, true, none, false⟩ := by decide +kernel
  have hreading : Arguments.parse ["QA=="] =
      .ok ⟨"QA==", false, false, false, none, false⟩ := by decide +kernel
  have hnode := @run_source_choice (asking []) (asking [([Text.Utf8.encode "QA=="], .file [])])
    rfl rfl rfl rfl
  have hlocal := @run_source_choice (reading []) (reading [fun _ => .refused "down"])
    rfl rfl rfl rfl
  refine ⟨hnode.1 ?_ rfl, hlocal.2 ?_ rfl⟩
  · intro args ha
    obtain rfl := Except.ok.inj (hasking.symm.trans ha)
    exact ⟨rfl, .inr (by decide)⟩
  · intro args ha
    obtain rfl := Except.ok.inj (hreading.symm.trans ha)
    simp

/-- Told to ask a node, but with an empty address for it, a run takes its input for a script, and
for a file as soon as there is one of that name. -/
theorem run_reads_input_without_address :
    let world (files : FileTree) : World :=
      ⟨["QA==", "--rpc", "--disable-colors"], [("DUMPNEF_RPC_URL", "")], files,
        [fun _ => .refused "down"], .ofDepth 1, fun _ => true⟩
    Arguments.parse (world []).arguments = .ok ⟨"QA==", true, false, true, none, false⟩ ∧
      (run (world [])).output = Text.ofString "0 RET\n" ∧
      (run (world [([Text.Utf8.encode "QA=="], .file [])])).output = [] := by
  refine ⟨by decide +kernel, by decide +kernel, by decide +kernel⟩

end Command

end NeoListing

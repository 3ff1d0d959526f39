import NeoListing.Command.Arguments
import NeoListing.Command.Failure

/-! # Runs of the command

A run is a function of all that it can see: arguments, environment, files, what comes of requests
to nodes, and what its output can encode. All lines are known before the first is written; only
writing them can fail after that.
-/

namespace NeoListing.Command

structure World where
  arguments : List Text
  /-- What loading a `.env` file leaves of it. -/
  environment : Environment
  files : FileTree
  exchanges : List Node.Exchange
  machine : Machine
  /-- Whether the output can encode a text. -/
  encodes : Text → Bool

inductive Status where
  | exit (code : Nat)
  /-- Ended by a failure that is not reported. -/
  | raised (failure : Failure)

structure Report where
  status : Status
  output : Text
  errors : Text
  posts : List Node.Post

structure Trail where
  session : Node.Session
  notices : List Notice
  /-- What was written to the output. -/
  output : Text

namespace Trail

def start (world : World) : Trail := ⟨Node.Session.new world.exchanges, [], []⟩

def noted (t : Trail) (notices : List Notice) : Trail :=
  ⟨t.session, t.notices ++ notices, t.output⟩

def wrote (t : Trail) (text : Text) : Trail := ⟨t.session, t.notices, t.output ++ text⟩

end Trail

abbrev Run := ExceptT Failure (StateM Trail)

def note (notices : List Notice) : Run Unit := modify (·.noted notices)

def attempt {ε α : Type} (wrap : ε → Failure) : Except ε α → Run α
  | .ok v => return v
  | .error e => throw (wrap e)

def nodeUrl (args : Arguments) (settings : Settings) : Option Text :=
  if !args.rpc then none
  else match args.rpcUrl with
    | some url => some (if url = "" then settings.nodeUrl else url)
    | none => some settings.nodeUrl

def loadContract (files : FileTree) (source : Text) (url : Option Text) : Run Contract := do
  let t ← get
  let loading := Contract.load files t.session source url
  set (⟨loading.session, t.notices ++ loading.notices, t.output⟩ : Trail)
  attempt .input loading.result

variable (world : World)

def loadManifest (p : Path) : Run (Table Int Text) := do
  let (starts, notices) ← attempt .manifest (Manifest.load world.machine world.files p)
  note notices
  return starts

/-- Debug information, or else the starts of methods. -/
def annotations (contract : Contract) : Run (Option DebugInfo × Table Int Text) := do
  match contract.path with
  | none => return (none, contract.methodNames)
  | some p =>
    match DebugInfo.load world.machine world.files p with
    | .ok (some info) => return (some info, contract.methodNames)
    | .ok none =>
      note [.noDebugInfo p.text]
      return (none, ← loadManifest world p)
    | .error e =>
      if e.isUnusable then
        note [.unusableDebugInfo p.text e.message]
        return (none, ← loadManifest world p)
      else throw (.debugInfo e)

def planFailure : Plan.Error FileError → Failure
  | .document e => .document e
  | .comment e => .comment e

def plan (contract : Contract) (info : Option DebugInfo) (methodNames : Table Int Text)
    (instructions : List Instruction) : Run (List Entry) := do
  let sources : Plan.Sources FileError :=
    ⟨info, methodNames, ⟨contract.tokens, ServiceTable.current⟩, world.files.sourceTexts⟩
  let (result, progress) := Plan.build sources instructions
  note progress.notices
  attempt planFailure result

def listing (colours : Bool) (contract : Contract) : Run (List Text) := do
  let (info, methodNames) ← annotations world contract
  let instructions ← attempt .decode (Script.disassemble contract.script)
  note [.decoded instructions.length]
  let entries ← plan world contract info methodNames instructions
  let width := addressWidth (instructions.map (fun i => (i.address : Int)))
  attempt .render (Render.lines world.machine width colours entries)

def body (args : Arguments) (settings : Settings) : Run (List Text) := do
  let contract ← loadContract world.files args.input (nodeUrl args settings)
  if args.methodTokens then attempt .tokens (MethodToken.list contract.tokens)
  else listing world (!(args.disableColours || settings.disableColours)) contract

/-- Writes a text, or nothing of it if it cannot be encoded. -/
def write (text : Text) : Run Unit :=
  if world.encodes text then modify (·.wrote text) else throw .unwritable

def writeLines : List Text → Run Unit
  | [] => return ()
  | line :: rest => do
    write world (line ++ "\n")
    writeLines rest

def shown (level : Nat) (notices : List Notice) : Text :=
  if level ≤ Settings.noticeLevel then Render.written (notices.flatMap Notice.lines) else ""

def report (level : Nat) (result : Except Failure Unit) (t : Trail) : Report :=
  match result with
  | .ok () => ⟨.exit 0, t.output, shown level t.notices, t.session.posts⟩
  | .error failure =>
    if failure.isReported then
      ⟨.exit 1, t.output, shown level t.notices ++ failure.message ++ "\n", t.session.posts⟩
    else ⟨.raised failure, t.output, shown level t.notices, t.session.posts⟩

def runWith (args : Arguments) : Report :=
  match Settings.load world.environment with
  | .error e => report Settings.noticeLevel (.error (.settings e)) (.start world)
  | .ok settings =>
    let (result, trail) :=
      (body world args settings >>= writeLines world).run.run (.start world)
    report (if args.verbose then Settings.noticeLevel else settings.level) result trail

def run : Report :=
  match Arguments.parse world.arguments with
  | .ok args => runWith world args
  | .error .help =>
    let (result, trail) := (write world Arguments.helpText).run.run (.start world)
    report Settings.noticeLevel result trail
  | .error (.usage e) => ⟨.exit 2, (Trail.start world).output, e.report, []⟩

end NeoListing.Command

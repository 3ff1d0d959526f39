import NeoListing.Proofs.Command.Stages
import NeoListing.Proofs.Listing.PlanEntries
import NeoListing.Proofs.Listing.RenderedLines

/-! # All or nothing

No stage of a run writes before all lines are there, so a run that comes to no lines writes
nothing. The lines are written one by one. A line that the output cannot encode ends the run with
the lines before it already written; where there is none, a run has written all method tokens, or
the listing of the whole script with a line for every instruction.
-/

namespace NeoListing.Command
open Outcome

/-! ## What there is to write -/

inductive Known (world : World) (contract : Contract) : Option DebugInfo → Table Int Text → Prop
  | given (h : contract.path = none) : Known world contract none contract.methodNames
  | debugInfo {p : Path} {info : DebugInfo} (hp : contract.path = some p)
      (h : DebugInfo.load world.machine world.files p = .ok (some info)) :
      Known world contract (some info) contract.methodNames
  | manifest {p : Path} {names : Table Int Text} {notices : List Notice}
      (hp : contract.path = some p) (h : DebugInfo.Unavailable world.machine world.files p)
      (hm : Manifest.load world.machine world.files p = .ok (names, notices)) :
      Known world contract none names

def planSources (world : World) (contract : Contract) (info : Option DebugInfo)
    (names : Table Int Text) : Plan.Sources FileError :=
  ⟨info, names, ⟨contract.tokens, ServiceTable.current⟩, world.files.sourceTexts⟩

structure IsListing (world : World) (colours : Bool) (contract : Contract)
    (is : List Instruction) (entries : List Entry) (lines : List Text) : Prop where
  decoded : Script.disassemble contract.script = .ok is
  planned : ∃ info names, Known world contract info names ∧
    (Plan.build (planSources world contract info names) is).1 = .ok entries
  rendered : Render.lines world.machine (addressWidth (is.map fun i => (i.address : Int))) colours
    entries = .ok lines

inductive Lists (world : World) (args : Arguments) (settings : Settings) (contract : Contract) :
    List Text → Prop
  | tokens {lines : List Text} (ht : args.methodTokens = true)
      (h : MethodToken.list contract.tokens = .ok lines) : Lists world args settings contract lines
  | listing {is : List Instruction} {entries : List Entry} {lines : List Text}
      (ht : args.methodTokens = false)
      (h : IsListing world (!(args.disableColours || settings.disableColours)) contract is entries
        lines) : Lists world args settings contract lines

section Stages

variable {world : World} {contract : Contract} {t : Trail}

end Stages

/-! ## Writing -/

theorem Trail.wrote_nil (t : Trail) : t.wrote [] = t := by
  rw [wrote, List.append_nil]

theorem Trail.wrote_wrote (t : Trail) (text more : Text) :
    (t.wrote text).wrote more = t.wrote (text ++ more) := by
  simp only [wrote, List.append_assoc]

section Writing

variable {world : World}

theorem run_write_of_encodes {text : Text} (h : world.encodes text = true) (t : Trail) :
    (write world text).run.run t = (.ok (), t.wrote text) := by
  rw [write, if_pos h]
  rfl

theorem run_write_of_refused {text : Text} (h : world.encodes text = false) (t : Trail) :
    (write world text).run.run t = (.error .unwritable, t) := by
  rw [write, if_neg (by simp [h])]
  rfl

def Accepts (world : World) (line : Text) : Prop := world.encodes (line ++ "\n") = true

/-- The first of the lines that cannot be encoded comes behind `before`. -/
def StopsAfter (world : World) (lines before : List Text) : Prop :=
  ∃ line after, lines = before ++ line :: after ∧ (∀ l ∈ before, Accepts world l) ∧
    ¬Accepts world line

theorem accepts_or_stopsAfter (world : World) (lines : List Text) :
    (∀ line ∈ lines, Accepts world line) ∨ ∃ before, StopsAfter world lines before := by
  induction lines with
  | nil => exact .inl (List.forall_mem_nil _)
  | cons line rest ih =>
    by_cases hl : Accepts world line
    · rcases ih with ih | ⟨before, stop, after, rfl, hb, hs⟩
      · exact .inl (List.forall_mem_cons.mpr ⟨hl, ih⟩)
      · exact .inr ⟨line :: before, stop, after, rfl, List.forall_mem_cons.mpr ⟨hl, hb⟩, hs⟩
    · exact .inr ⟨[], line, rest, rfl, List.forall_mem_nil _, hl⟩

/-- Lines that can be encoded are written before the others are looked at. -/
theorem run_writeLines_append {before : List Text} (h : ∀ line ∈ before, Accepts world line)
    (rest : List Text) (t : Trail) :
    (writeLines world (before ++ rest)).run.run t =
      (writeLines world rest).run.run (t.wrote (Render.written before)) := by
  induction before generalizing t with
  | nil =>
    rw [List.nil_append, Render.written, List.flatMap_nil, t.wrote_nil]
  | cons line before ih =>
    rw [List.forall_mem_cons] at h
    rw [List.cons_append, writeLines, run_bind_of_ok (run_write_of_encodes h.1 t), ih h.2,
      Trail.wrote_wrote]
    rfl

theorem run_writeLines {lines : List Text} (h : ∀ line ∈ lines, Accepts world line) (t : Trail) :
    (writeLines world lines).run.run t = (.ok (), t.wrote (Render.written lines)) := by
  have hr := run_writeLines_append h [] t
  rw [List.append_nil] at hr
  rw [hr]
  rfl

theorem run_writeLines_of_stopsAfter {lines before : List Text} (h : StopsAfter world lines before)
    (t : Trail) :
    (writeLines world lines).run.run t = (.error .unwritable, t.wrote (Render.written before)) := by
  obtain ⟨line, after, rfl, hb, hl⟩ := h
  rw [run_writeLines_append hb, writeLines]
  exact run_bind_of_error (run_write_of_refused (Bool.eq_false_of_not_eq_true hl) _) _

/-- What comes before writing leaves the output as it is. -/
theorem output_body (world : World) (args : Arguments) (settings : Settings) (t : Trail) :
    ((body world args settings).run.run t).2.output = t.output := by
  rw [body]
  have hload := run_loadContract_eq world.files args.input (nodeUrl args settings) t
  cases hr : (Contract.load world.files t.session args.input (nodeUrl args settings)).result with
  | error e =>
    rw [hr] at hload
    rw [run_bind_of_error hload]
  | ok contract =>
    rw [hr] at hload
    rw [run_bind_of_ok hload]
    cases args.methodTokens with
    | true => rw [if_pos rfl, run_attempt]
    | false =>
      obtain ⟨r, notices, hq⟩ :=
        quiet_listing world (!(args.disableColours || settings.disableColours)) contract
      rw [if_neg Bool.false_ne_true, hq]
      rfl

end Writing

/-! ## Whole runs -/

theorem report_output (level : Nat) (result : Except Failure Unit) (t : Trail) :
    (report level result t).output = t.output := by
  unfold report
  split
  · rfl
  · split <;> rfl

theorem report_of_error (level : Nat) (failure : Failure) (t : Trail) :
    (report level (.error failure) t).status ≠ .exit 0 := by
  unfold report
  simp only
  split
  · rintro ⟨⟩
  · rintro ⟨⟩

section Whole

variable {world : World} {args : Arguments} {settings : Settings} {trail : Trail}

theorem runWith_of_run {result : Except Failure Unit}
    (h : Settings.load world.environment = .ok settings)
    (hb : (body world args settings >>= writeLines world).run.run (.start world) =
      (result, trail)) :
    ∃ level, runWith world args = report level result trail := by
  simp only [runWith, h, hb]
  exact ⟨_, rfl⟩

theorem runWith_of_failure {failure : Failure} (h : Settings.load world.environment = .ok settings)
    (hb : (body world args settings).run.run (.start world) = (.error failure, trail)) :
    (runWith world args).status ≠ .exit 0 ∧ (runWith world args).output = [] := by
  obtain ⟨level, hr⟩ := runWith_of_run h (run_bind_of_error hb _)
  have ho : trail.output = [] := by
    have hout := output_body world args settings (.start world)
    rwa [hb] at hout
  rw [hr, report_output]
  exact ⟨report_of_error _ _ _, ho⟩

theorem runWith_of_lines {lines : List Text} (h : Settings.load world.environment = .ok settings)
    (hb : ((body world args settings).run.run (.start world)).1 = .ok lines) :
    ((∀ line ∈ lines, Accepts world line) →
      (runWith world args).status = .exit 0 ∧
        (runWith world args).output = Render.written lines) ∧
    ∀ before, StopsAfter world lines before →
      (runWith world args).status = .raised .unwritable ∧
        (runWith world args).output = Render.written before := by
  rcases hr : (body world args settings).run.run (.start world) with ⟨result, t⟩
  have ho : t.output = [] := by
    have hout := output_body world args settings (.start world)
    rwa [hr] at hout
  have hwrote : ∀ text, (t.wrote text).output = text := fun text => by rw [Trail.wrote, ho]; rfl
  rw [hr] at hb
  obtain rfl : result = .ok lines := hb
  constructor
  · intro ha
    obtain ⟨level, hw⟩ := runWith_of_run h ((run_bind_of_ok hr _).trans (run_writeLines ha t))
    rw [hw, report_output, hwrote]
    exact ⟨rfl, rfl⟩
  · intro before hs
    obtain ⟨level, hw⟩ :=
      runWith_of_run h ((run_bind_of_ok hr _).trans (run_writeLines_of_stopsAfter hs t))
    rw [hw, report_output, hwrote]
    exact ⟨rfl, rfl⟩

theorem run_of_args (h : Arguments.parse world.arguments = .ok args) :
    run world = runWith world args := by
  simp only [run, h]

end Whole

def calledMethod (method : Text) : Json :=
  .object [("hash", .text "0x0000000000000000000000000000000000000000"), ("method", .text method),
    ("paramcount", .int 0), ("hasreturnvalue", .bool false), ("callflags", .text "None")]

def callsTwo (first second : Text) : Node.Answer :=
  ⟨.object [("result", .object [("nef", .object [("script", .text "QA=="),
    ("tokens", .array [calledMethod first, calledMethod second])]),
    ("manifest", .object [])])], rfl⟩

-- The output takes whole characters only, and the name of the second method is half a surrogate
-- pair: the lines of the first token are out when that name ends the run.
example :
    let world : World := ⟨["h", "--rpc", "--method-tokens"], [], [],
      [fun _ => .answered (callsTwo "a" [.surrogate 0])], .ofDepth 1,
      fun text => text.string?.isSome⟩
    (run world).status = .raised .unwritable ∧
      (run world).output = Text.ofString
        ("00-00: 0x0000000000000000000000000000000000000000 a\n\t0 parameters\n" ++
          "\tdoes not have return value\n\tNone call flags\n") := by
  exact ⟨by cbv, by cbv⟩

end NeoListing.Command

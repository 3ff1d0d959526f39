import NeoListing.Proofs.Command.AllOrNothing
import NeoListing.Proofs.Command.Routes
import NeoListing.Proofs.File.Removal

/-! # Debug information that cannot be used

Debug information that cannot be used counts as none: the run ends in the same way, and with the
same output, as one without the files that it was looked for in. Only in notices, and in which
of two names that are too long an error is about, can the two runs differ.
-/

namespace NeoListing

def Path.sideName (p : Path) (suffix : String) : Text := stem p.name ++ Text.ofString suffix

theorem Path.withSuffix_eq_sideName {p : Path} (h : p.name ≠ []) (suffix : String) :
    p.withSuffix suffix = .ok (p.beside (p.sideName suffix)) := Path.withSuffix_eq h suffix

namespace FileTree

def removeSide (tree : FileTree) (p : Path) (suffix : String) : FileTree :=
  match p.withSuffix suffix with
  | .ok q => tree.remove q
  | .error _ => tree

def withoutDebugInfo (tree : FileTree) (p : Path) : FileTree :=
  (tree.removeSide p ".nefdbgnfo").removeSide p ".debug.json"

section Sides

variable {tree : FileTree} {p : Path} {base : List Bytes} {lead : Nat}

theorem withoutDebugInfo_eq (h : p.name ≠ []) (tree : FileTree) :
    tree.withoutDebugInfo p =
      (tree.remove (p.beside (p.sideName ".nefdbgnfo"))).remove
        (p.beside (p.sideName ".debug.json")) := by
  simp only [withoutDebugInfo, removeSide, Path.withSuffix_eq_sideName h]

theorem nameBytes?_sideName_eq_some_iff {suffix : String} {bs : Bytes} :
    nameBytes? (p.sideName suffix) = some bs ↔
      ∃ stem, nameBytes? (Path.stem p.name) = some stem ∧ bs = stem ++ Text.Utf8.encode suffix := by
  rw [Path.sideName, nameBytes?_append_eq_some_iff]
  constructor
  · rintro ⟨xs, ys, hs, ht, rfl⟩
    rw [nameBytes?_ofString] at ht
    exact ⟨xs, hs, by rw [Option.some.inj ht]⟩
  · rintro ⟨xs, hs, rfl⟩
    exact ⟨xs, _, hs, nameBytes?_ofString suffix, rfl⟩

theorem sideName_ne (p : Path) (suffix suffix' : String)
    (h : (Text.Utf8.encode suffix).length ≠ (Text.Utf8.encode suffix').length) (name : Bytes)
    (hs : nameBytes? (p.sideName suffix) = some name) :
    nameBytes? (p.sideName suffix') ≠ some name := by
  intro hs'
  obtain ⟨stem, hstem, rfl⟩ := nameBytes?_sideName_eq_some_iff.mp hs
  obtain ⟨stem', hstem', he⟩ := nameBytes?_sideName_eq_some_iff.mp hs'
  obtain rfl := Option.some.inj (hstem.symm.trans hstem')
  exact h (congrArg List.length (List.append_cancel_left he))

theorem sideName_ne_upName (p : Path) (suffix : String)
    (h : 2 < (Text.Utf8.encode suffix).length) :
    nameBytes? (p.sideName suffix) ≠ some upName := by
  intro hs
  obtain ⟨stem, -, he⟩ := nameBytes?_sideName_eq_some_iff.mp hs
  have hl := congrArg List.length he
  have hu : upName.length = 2 := rfl
  rw [List.length_append, hu] at hl
  omega

/-- Files beside a contract file stay, but for its debug information. -/
theorem read_withoutDebugInfo (hn : p.name ≠ []) (h : tree.Reaches p base lead) {t : Text}
    (ha : ∀ name, nameBytes? t = some name → nameBytes? (p.sideName ".nefdbgnfo") ≠ some name)
    (hd : ∀ name, nameBytes? t = some name → nameBytes? (p.sideName ".debug.json") ≠ some name) :
    (tree.withoutDebugInfo p).isFile (p.beside t) = tree.isFile (p.beside t) ∧
      (tree.withoutDebugInfo p).read (p.beside t) = tree.read (p.beside t) := by
  have hfirst := read_remove_beside h ha (sideName_ne_upName p _ (by cbv))
  have hsecond := read_remove_beside (h.remove (p.beside (p.sideName ".nefdbgnfo"))) hd
    (sideName_ne_upName p _ (by cbv))
  rw [withoutDebugInfo_eq hn]
  exact ⟨hsecond.1.trans hfirst.1, hsecond.2.trans hfirst.2⟩

theorem isFile_archive_withoutDebugInfo (hn : p.name ≠ []) (h : tree.Reaches p base lead) :
    (tree.withoutDebugInfo p).isFile (p.beside (p.sideName ".nefdbgnfo")) =
      (tree.isFile (p.beside (p.sideName ".nefdbgnfo"))).map fun _ => false := by
  have hne := sideName_ne p ".nefdbgnfo" ".debug.json" (by cbv)
  rw [withoutDebugInfo_eq hn, ← isFile_remove_self h]
  exact (read_remove_beside (h.remove _) hne (sideName_ne_upName p _ (by cbv))).1

theorem isFile_plain_withoutDebugInfo (hn : p.name ≠ []) (h : tree.Reaches p base lead) :
    (tree.withoutDebugInfo p).isFile (p.beside (p.sideName ".debug.json")) =
      (tree.isFile (p.beside (p.sideName ".debug.json"))).map fun _ => false := by
  have hne := sideName_ne p ".debug.json" ".nefdbgnfo" (by cbv)
  rw [withoutDebugInfo_eq hn, isFile_remove_self (h.remove _),
    (read_remove_beside h hne (sideName_ne_upName p _ (by cbv))).1]

end Sides

end FileTree

/-! ## Loading -/

section Loading

variable {machine : Machine} {files : FileTree} {p : Path} {base : List Bytes} {lead : Nat}

theorem Manifest.load_withoutDebugInfo (hn : p.name ≠ []) (h : files.Reaches p base lead) :
    Manifest.load machine (files.withoutDebugInfo p) p = Manifest.load machine files p := by
  have ha := FileTree.sideName_ne p ".manifest.json" ".nefdbgnfo" (by cbv)
  have hd := FileTree.sideName_ne p ".manifest.json" ".debug.json" (by cbv)
  obtain ⟨hisFile, hread⟩ := FileTree.read_withoutDebugInfo hn h ha hd
  simp only [Manifest.load, Manifest.readFile, Path.withSuffix_eq_sideName hn, hisFile, hread]

/-- A contract file is not changed, unless it is itself such a file. -/
theorem FileTree.read_withoutDebugInfo_self (hn : p.name ≠ []) (h : files.Reaches p base lead)
    (ha : p.withSuffix ".nefdbgnfo" ≠ .ok p) (hd : p.withSuffix ".debug.json" ≠ .ok p) :
    (files.withoutDebugInfo p).isFile p = files.isFile p ∧
      (files.withoutDebugInfo p).read p = files.read p := by
  -- behind a common stem, names with the bytes of a suffix end in that suffix
  have hne : ∀ suffix, (Text.Utf8.encode suffix).all (fun b => b.toNat < 0x80) = true →
      p.withSuffix suffix ≠ .ok p → ∀ bytes,
      nameBytes? p.name = some bytes → nameBytes? (p.sideName suffix) ≠ some bytes := by
    intro suffix hascii hs bytes hb hb'
    obtain ⟨rest, hrest⟩ := Path.exists_stem_append p.name
    have hsplit : nameBytes? (Path.stem p.name ++ rest) = some bytes := hrest ▸ hb
    obtain ⟨stem, hstem, rfl⟩ := nameBytes?_sideName_eq_some_iff.mp hb'
    obtain ⟨stem', last, hstem', hlast, he⟩ := nameBytes?_append_eq_some_iff.mp hsplit
    obtain rfl := Option.some.inj (hstem.symm.trans hstem')
    rw [← List.append_cancel_left he] at hlast
    have hside : p.sideName suffix = p.name := by
      rw [Path.sideName, ← eq_ofString_of_nameBytes? (by simpa using hascii) hlast, ← hrest]
    apply hs
    rw [Path.withSuffix_eq_sideName hn, hside, Path.beside_name hn]
  have hr := read_withoutDebugInfo hn h (hne _ (by cbv) ha) (hne _ (by cbv) hd)
  rwa [Path.beside_name hn] at hr

namespace DebugInfo

theorem load_of_isFile_error {e : FileError} (hn : p.name ≠ [])
    (ha : files.isFile (p.beside (p.sideName ".nefdbgnfo")) = .error e) :
    load machine files p = .error (.file e) := by
  simp only [load, sideText, suffixed, Path.withSuffix_eq_sideName hn, bind, Except.bind, content?,
    ha]

theorem load_of_no_archive (hn : p.name ≠ [])
    (ha : files.isFile (p.beside (p.sideName ".nefdbgnfo")) = .ok false) :
    (∀ e, files.isFile (p.beside (p.sideName ".debug.json")) = .error e →
        load machine files p = .error (.file e)) ∧
      (files.isFile (p.beside (p.sideName ".debug.json")) = .ok false →
        load machine files p = .ok none) := by
  constructor
  · intro e hd
    simp only [load, sideText, suffixed, Path.withSuffix_eq_sideName hn, bind, Except.bind,
      content?, ha, hd]
  · intro hd
    simp only [load, sideText, suffixed, Path.withSuffix_eq_sideName hn, bind, Except.bind,
      content?, ha, hd]
    rfl

theorem name_ne_nil_of_unusable {e : LoadError} (h : load machine files p = .error e)
    (he : e.isUnusable = true) : p.name ≠ [] := by
  intro hn
  have hs : p.withSuffix ".nefdbgnfo" = .error ⟨p⟩ := if_pos hn
  simp only [load, sideText, suffixed, hs] at h
  obtain rfl := Except.error.inj h
  cases he

/-- Debug information that cannot be used is in the archive or, where there is none, in the
plain file. -/
theorem isFile_of_unusable {e : LoadError} (h : load machine files p = .error e)
    (he : e.isUnusable = true) :
    files.isFile (p.beside (p.sideName ".nefdbgnfo")) = .ok true ∨
      files.isFile (p.beside (p.sideName ".nefdbgnfo")) = .ok false ∧
        files.isFile (p.beside (p.sideName ".debug.json")) = .ok true := by
  have hn := name_ne_nil_of_unusable h he
  rcases ha : files.isFile (p.beside (p.sideName ".nefdbgnfo")) with fault | (_ | _)
  · rw [load_of_isFile_error hn ha] at h
    obtain rfl := Except.error.inj h
    cases he
  · obtain ⟨hfault, hnone⟩ := load_of_no_archive hn ha
    rcases hd : files.isFile (p.beside (p.sideName ".debug.json")) with fault | (_ | _)
    · rw [hfault fault hd] at h
      obtain rfl := Except.error.inj h
      cases he
    · rw [hnone hd] at h
      cases h
    · exact .inr ⟨rfl, rfl⟩
  · exact .inl rfl

/-- Without the files that could not be used there is no debug information, or the name of the
plain file is too long. Then that of the manifest is too long as well. -/
theorem load_withoutDebugInfo {e : LoadError} (hr : files.Reaches p base lead)
    (h : load machine files p = .error e) (he : e.isUnusable = true) :
    load machine (files.withoutDebugInfo p) p = .ok none ∨
      ∃ q q', load machine (files.withoutDebugInfo p) p =
          .error (.file (.cannotRead .nameTooLong q)) ∧
        Manifest.load machine files p = .error (.file (.cannotRead .nameTooLong q')) := by
  have hn := name_ne_nil_of_unusable h he
  have harchive := FileTree.isFile_archive_withoutDebugInfo hn hr
  have hplain := FileTree.isFile_plain_withoutDebugInfo hn hr
  have hgone : (files.withoutDebugInfo p).isFile (p.beside (p.sideName ".nefdbgnfo")) =
      .ok false := by
    rw [harchive]
    rcases isFile_of_unusable h he with ha | ⟨ha, -⟩ <;> rw [ha] <;> rfl
  obtain ⟨hfault, hnone⟩ := load_of_no_archive hn hgone
  cases hd : files.isFile (p.beside (p.sideName ".debug.json")) with
  | ok b =>
    rw [hd] at hplain
    exact .inl (hnone hplain)
  | error fault =>
    rw [hd] at hplain
    obtain ⟨name, hname, hnull, hlong, rfl⟩ := (FileTree.isFile_beside_eq_error_iff hr).mp hd
    obtain ⟨stem, hstem, rfl⟩ := FileTree.nameBytes?_sideName_eq_some_iff.mp hname
    have hsuffix : (Text.Utf8.encode ".debug.json").length <
        (Text.Utf8.encode ".manifest.json").length := by cbv
    have hmanifest : files.isFile (p.beside (p.sideName ".manifest.json")) =
        .error (.cannotRead .nameTooLong (p.beside (p.sideName ".manifest.json")).text) := by
      refine (FileTree.isFile_beside_eq_error_iff hr).mpr
        ⟨_, FileTree.nameBytes?_sideName_eq_some_iff.mpr ⟨stem, hstem, rfl⟩, ?_, ?_, rfl⟩
      · rw [Path.sideName, List.any_append, Bool.or_eq_false_iff] at hnull ⊢
        exact ⟨hnull.1, by cbv⟩
      · simp only [List.length_append] at hlong ⊢
        omega
    have hload : Manifest.load machine files p = .error (.file
        (.cannotRead .nameTooLong (p.beside (p.sideName ".manifest.json")).text)) := by
      simp only [Manifest.load, Path.withSuffix_eq_sideName hn, hmanifest]
    exact .inr ⟨_, _, hfault _ hplain, hload⟩

end DebugInfo

end Loading

namespace Command
open Outcome

/-! ## Runs -/

/-- Two results of a run that are the same, or failures that are both reported. -/
def SameEnd (r r' : Except Failure (List Text)) : Prop :=
  r = r' ∨ ∃ f f', r = .error f ∧ r' = .error f' ∧ f.isReported = true ∧ f'.isReported = true

def statusOf (f : Failure) : Status := if f.isReported then .exit 1 else .raised f

theorem report_status_of_error (level : Nat) (f : Failure) (t : Trail) :
    (report level (.error f) t).status = statusOf f := by
  simp only [report, statusOf]
  split <;> rfl

section Whole

variable {world world' : World} {args : Arguments} {settings : Settings}

theorem runWith_status_of_failure {f : Failure} (h : Settings.load world.environment = .ok settings)
    (hb : ((body world args settings).run.run (.start world)).1 = .error f) :
    (runWith world args).status = statusOf f ∧ (runWith world args).output = [] := by
  rcases hr : (body world args settings).run.run (.start world) with ⟨result, trail⟩
  rw [hr] at hb
  obtain rfl : result = .error f := hb
  obtain ⟨level, hw⟩ := runWith_of_run h (run_bind_of_error hr _)
  refine ⟨?_, (runWith_of_failure h hr).2⟩
  rw [hw, report_status_of_error]

/-- Where the lines are known, only what the output can encode matters. -/
theorem runWith_same_of_lines {lines : List Text} {settings' : Settings}
    (hs : Settings.load world.environment = .ok settings)
    (hs' : Settings.load world'.environment = .ok settings') (hc : world'.encodes = world.encodes)
    (hb : ((body world args settings).run.run (.start world)).1 = .ok lines)
    (hb' : ((body world' args settings').run.run (.start world')).1 = .ok lines) :
    (runWith world' args).status = (runWith world args).status ∧
      (runWith world' args).output = (runWith world args).output := by
  obtain ⟨hall, hstop⟩ := runWith_of_lines hs hb
  obtain ⟨hall', hstop'⟩ := runWith_of_lines hs' hb'
  have haccepts : Accepts world' = Accepts world := by
    funext line
    rw [Accepts, Accepts, hc]
  have hstops : StopsAfter world' = StopsAfter world := by
    funext lines before
    rw [StopsAfter, StopsAfter, haccepts]
  rw [haccepts] at hall'
  rw [hstops] at hstop'
  rcases accepts_or_stopsAfter world lines with ha | ⟨before, hl⟩
  · obtain ⟨hstatus, houtput⟩ := hall ha
    obtain ⟨hstatus', houtput'⟩ := hall' ha
    rw [hstatus, hstatus', houtput, houtput']
    exact ⟨rfl, rfl⟩
  · obtain ⟨hstatus, houtput⟩ := hstop before hl
    obtain ⟨hstatus', houtput'⟩ := hstop' before hl
    rw [hstatus, hstatus', houtput, houtput']
    exact ⟨rfl, rfl⟩

theorem runWith_same (he : world'.environment = world.environment)
    (hc : world'.encodes = world.encodes)
    (hb : ∀ settings, Settings.load world.environment = .ok settings →
      SameEnd ((body world' args settings).run.run (.start world')).1
        ((body world args settings).run.run (.start world)).1) :
    (runWith world' args).status = (runWith world args).status ∧
      (runWith world' args).output = (runWith world args).output := by
  cases hs : Settings.load world.environment with
  | error e =>
    simp only [runWith, he, hs, report_status_of_error, report_output]
    exact ⟨trivial, rfl⟩
  | ok settings =>
    have hs' : Settings.load world'.environment = .ok settings := he ▸ hs
    rcases hb settings hs with h | ⟨f', f, h', h, hf', hf⟩
    · cases hr : ((body world args settings).run.run (.start world)).1 with
      | error f =>
        obtain ⟨hstatus, houtput⟩ := runWith_status_of_failure hs hr
        obtain ⟨hstatus', houtput'⟩ := runWith_status_of_failure hs' (h.trans hr)
        rw [hstatus, hstatus', houtput, houtput']
        exact ⟨rfl, rfl⟩
      | ok lines => exact runWith_same_of_lines hs hs' hc hr (h.trans hr)
    · obtain ⟨hstatus, houtput⟩ := runWith_status_of_failure hs h
      obtain ⟨hstatus', houtput'⟩ := runWith_status_of_failure hs' h'
      rw [hstatus, hstatus', houtput, houtput', statusOf, statusOf, if_pos hf,
        if_pos hf']
      exact ⟨rfl, rfl⟩

end Whole

/-! ## Listings without debug information -/

section Bare

variable {world : World} {contract : Contract} {p : Path}

/-- Without debug information a listing depends on no file but the manifest. -/
theorem result_listing_of_unavailable (hp : contract.path = some p)
    (h : DebugInfo.Unavailable world.machine world.files p) (colours : Bool) (t : Trail) :
    ((listing world colours contract).run.run t).1 =
      (Manifest.load world.machine world.files p).mapError .manifest >>= fun known =>
        namedListing world.machine colours contract.script contract.tokens known.1 := by
  obtain ⟨notices, ha⟩ := annotations_of_unavailable hp h
  cases hm : Manifest.load world.machine world.files p with
  | error e =>
    have hrun : (annotations world contract).run.run t =
        (.error (.manifest e), t.noted notices) := by
      simp only [ha, loadManifest, hm]
      rfl
    rw [listing, run_bind_of_error hrun]
    rfl
  | ok known =>
    have hrun : (annotations world contract).run.run t =
        (.ok (none, known.1), (t.noted notices).noted known.2) := by
      simp only [ha, loadManifest, hm]
      rfl
    rw [run_listing hrun]
    rfl

theorem result_listing_of_fault {e : DebugInfo.LoadError} (hp : contract.path = some p)
    (h : DebugInfo.load world.machine world.files p = .error e) (he : e.isUnusable = false)
    (colours : Bool) (t : Trail) :
    ((listing world colours contract).run.run t).1 = .error (.debugInfo e) := by
  have hrun : (annotations world contract).run.run t = (.error (.debugInfo e), t) := by
    rw [annotations_of_fault hp h he]
    rfl
  rw [listing, run_bind_of_error hrun]

end Bare

def World.withoutDebugInfo (world : World) (p : Path) : World :=
  ⟨world.arguments, world.environment, world.files.withoutDebugInfo p, world.exchanges,
    world.machine, world.encodes⟩

theorem result_listing_withoutDebugInfo {world : World} {contract : Contract} {p : Path}
    {base : List Bytes} {lead : Nat} {e : DebugInfo.LoadError} (hp : contract.path = some p)
    (hr : world.files.Reaches p base lead)
    (h : DebugInfo.load world.machine world.files p = .error e) (he : e.isUnusable = true)
    (colours : Bool) (t : Trail) :
    SameEnd ((listing (world.withoutDebugInfo p) colours contract).run.run t).1
      ((listing world colours contract).run.run t).1 := by
  have hn := DebugInfo.name_ne_nil_of_unusable h he
  have hunusable := result_listing_of_unavailable hp (.inr ⟨e, h, he⟩) colours t
  let bare := world.withoutDebugInfo p
  rcases DebugInfo.load_withoutDebugInfo hr h he with hnone | ⟨q, q', hlong, hmanifest⟩
  · have hnone : DebugInfo.load bare.machine bare.files p = .ok none := hnone
    refine .inl ((result_listing_of_unavailable hp (.inl hnone) colours t).trans ?_)
    rw [hunusable]
    simp only [bare, World.withoutDebugInfo, Manifest.load_withoutDebugInfo hn hr]
  · have hlong : DebugInfo.load bare.machine bare.files p =
        .error (.file (.cannotRead .nameTooLong q)) := hlong
    refine .inr ⟨_, .manifest (.file (.cannotRead .nameTooLong q')),
      result_listing_of_fault hp hlong rfl colours t, ?_, rfl, rfl⟩
    rw [hunusable, hmanifest]
    rfl

section Body

variable {files files' : FileTree}

theorem path_of_load_file {source : Text} {session : Node.Session} {contract : Contract}
    (hf : files.isFile (Path.ofText source) = .ok true)
    (h : (Contract.load files session source none).result = .ok contract) :
    contract.path = some (Path.ofText source) := by
  have hfile : Contract.namesFile files source = true := by
    rw [Contract.namesFile, hf]
  simp only [Contract.load, Contract.loadLocal, if_pos hfile, Contract.ofFile] at h
  split at h
  · cases h
  · split at h
    · cases h
    · obtain rfl := Except.ok.inj h
      rfl

theorem load_file_congr {source : Text}
    (hf : files'.isFile (Path.ofText source) = files.isFile (Path.ofText source))
    (hr : files'.read (Path.ofText source) = files.read (Path.ofText source))
    (session : Node.Session) :
    Contract.load files' session source none = Contract.load files session source none := by
  have hnames : Contract.namesFile files' source = Contract.namesFile files source := by
    simp only [Contract.namesFile, hf]
  have hfile : Contract.ofFile files' (Path.ofText source) =
      Contract.ofFile files (Path.ofText source) := by
    simp only [Contract.ofFile, hr]
  rw [Contract.load, Contract.load, Contract.loadLocal, Contract.loadLocal, hnames, hfile]

theorem result_body_withoutDebugInfo {world : World} {args : Arguments} {settings : Settings}
    {e : DebugInfo.LoadError} (hrpc : args.rpc = false)
    (hf : world.files.isFile (Path.ofText args.input) = .ok true)
    (ha : (Path.ofText args.input).withSuffix ".nefdbgnfo" ≠ .ok (Path.ofText args.input))
    (hd : (Path.ofText args.input).withSuffix ".debug.json" ≠ .ok (Path.ofText args.input))
    (h : DebugInfo.load world.machine world.files (Path.ofText args.input) = .error e)
    (he : e.isUnusable = true) (t : Trail) :
    SameEnd ((body (world.withoutDebugInfo (Path.ofText args.input)) args settings).run.run t).1
      ((body world args settings).run.run t).1 := by
  have hn := DebugInfo.name_ne_nil_of_unusable h he
  obtain ⟨base, lead, hr⟩ := FileTree.exists_reaches hn hf
  obtain ⟨hisFile, hread⟩ := FileTree.read_withoutDebugInfo_self hn hr ha hd
  have hurl : nodeUrl args settings = none := by simp [nodeUrl, hrpc]
  have hload : loadContract (world.withoutDebugInfo (Path.ofText args.input)).files args.input
      none = loadContract world.files args.input none := by
    simp only [loadContract, World.withoutDebugInfo, load_file_congr hisFile hread]
  rw [body, body, hurl, hload]
  rcases hl : (loadContract world.files args.input none).run.run t with ⟨f | contract, t'⟩
  · rw [run_bind_of_error hl, run_bind_of_error hl]
    exact .inl rfl
  · rw [run_bind_of_ok hl, run_bind_of_ok hl]
    have hp : contract.path = some (Path.ofText args.input) := by
      rw [run_loadContract_eq] at hl
      exact path_of_load_file hf (mapError_eq_ok_iff.mp (congrArg Prod.fst hl))
    -- the branch is taken first: the trees that the other one looks at are not to be compared
    cases args.methodTokens with
    | true =>
      rw [if_pos rfl, if_pos rfl]
      exact .inl rfl
    | false =>
      rw [if_neg Bool.false_ne_true, if_neg Bool.false_ne_true]
      exact result_listing_withoutDebugInfo hp hr h he _ t'

end Body

/-- Debug information that cannot be used counts as none: without the archive and the plain file
that it is looked for in, the run ends in the same way and writes the same. -/
theorem run_unusable_debugInfo {world : World} {args : Arguments} {e : DebugInfo.LoadError}
    (hargs : Arguments.parse world.arguments = .ok args) (hrpc : args.rpc = false)
    (hf : world.files.isFile (Path.ofText args.input) = .ok true)
    (ha : (Path.ofText args.input).withSuffix ".nefdbgnfo" ≠ .ok (Path.ofText args.input))
    (hd : (Path.ofText args.input).withSuffix ".debug.json" ≠ .ok (Path.ofText args.input))
    (h : DebugInfo.load world.machine world.files (Path.ofText args.input) = .error e)
    (he : e.isUnusable = true) :
    let bare := world.withoutDebugInfo (Path.ofText args.input)
    (run bare).status = (run world).status ∧ (run bare).output = (run world).output := by
  intro bare
  have hbare : Arguments.parse bare.arguments = .ok args := hargs
  rw [run_of_args hargs, run_of_args hbare]
  refine runWith_same rfl rfl ?_
  intro settings _
  exact result_body_withoutDebugInfo hrpc hf ha hd h he _

def damagedFiles (data : Bytes) : FileTree :=
  sampleFiles data ++ [([Text.Utf8.encode "a.nefdbgnfo"], .file [0x50, 0x4B]),
    ([Text.Utf8.encode "a.debug.json"], .file [])]

theorem withoutDebugInfo_damagedFiles (data : Bytes) :
    (damagedFiles data).withoutDebugInfo (Path.ofText "a.nef") = sampleFiles data := by cbv

def returningContract : Nef := ⟨"neon", "", [], [0x40], 0⟩

theorem storable_returningContract : returningContract.Storable := by
  refine ⟨by cbv, by decide, by cbv, by decide, ?_, by decide, by decide⟩
  intro t ht
  cases ht

theorem parse_sampleArguments : Arguments.parse ["a.nef", "--disable-colors"] =
    .ok ⟨"a.nef", true, false, false, none, false⟩ := by decide +kernel

theorem run_sampleFiles :
    let world : World := ⟨["a.nef", "--disable-colors"], [],
      sampleFiles returningContract.serialize, [], .ofDepth 5, fun _ => true⟩
    (run world).status = .exit 0 ∧
      (run world).output = Text.ofString "# Method Start main\n0 RET\n" := by
  intro world
  let args : Arguments := ⟨"a.nef", true, false, false, none, false⟩
  let settings : Settings := ⟨false, Settings.defaultNode, 30⟩
  let lines : List Text := [Text.ofString "# Method Start main", Text.ofString "0 RET"]
  have hargs : Arguments.parse world.arguments = .ok args := parse_sampleArguments
  have hs : Settings.load world.environment = .ok settings := by cbv
  have hf : world.files.HoldsContract world.machine (Path.ofText args.input)
      returningContract.serialize sampleManifest := holdsContract_sampleFiles _
  have hm : Manifest.starts sampleManifest = .ok [(0, Text.ofString "main")] := rfl
  have hp := Nef.parse_eq_ok_iff.mpr (Nef.isFile_serialize storable_returningContract)
  have hbody := run_body_file rfl hf hp hm settings (.start world)
  have hlines : (namedOutcome world.machine args settings returningContract.script
      returningContract.tokens [(0, Text.ofString "main")]).toOption = some lines := by
    decide +kernel
  have hwritten : Render.written lines = Text.ofString "# Method Start main\n0 RET\n" := by cbv
  have hr := runWith_of_lines hs (hbody.trans (toOption_eq_some_iff.mp hlines))
  rw [run_of_args hargs, ← hwritten]
  exact hr.1 fun _ _ => rfl

/-- A damaged archive is passed over, and so is the plain file beside it: the method has its name
from the manifest. -/
theorem run_unusable_debugInfo_archive :
    let world : World := ⟨["a.nef", "--disable-colors"], [],
      damagedFiles returningContract.serialize, [], .ofDepth 5, fun _ => true⟩
    (∃ e, DebugInfo.load world.machine world.files (Path.ofText "a.nef") = .error e ∧
        e.isUnusable = true) ∧
      (run world).status = .exit 0 ∧
      (run world).output = Text.ofString "# Method Start main\n0 RET\n" := by
  intro world
  have hargs : Arguments.parse world.arguments = .ok _ := parse_sampleArguments
  have hfile : ∀ data, (damagedFiles data).isFile (Path.ofText "a.nef") = .ok true := by
    intro data
    cbv
  have hload : ∀ data, ∃ e, DebugInfo.load (.ofDepth 5) (damagedFiles data)
      (Path.ofText "a.nef") = .error e ∧ e.isUnusable = true := fun data => ⟨_, by cbv, rfl⟩
  obtain ⟨e, h, he⟩ := hload returningContract.serialize
  have hsame := run_unusable_debugInfo hargs rfl (hfile _) (by decide) (by decide) h he
  rw [World.withoutDebugInfo, withoutDebugInfo_damagedFiles] at hsame
  obtain ⟨hstatus, houtput⟩ := run_sampleFiles
  exact ⟨⟨e, h, he⟩, hsame.1.symm.trans hstatus, hsame.2.symm.trans houtput⟩

end Command

end NeoListing

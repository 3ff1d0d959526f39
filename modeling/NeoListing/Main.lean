import NeoListing.Command.Run

/-! # The command

Collects what a run can see and writes what it reports. Requests to nodes need a transport
that is not part of this command, so they fail.
-/

namespace NeoListing

def addFile (tree : FileTree) (path : Text) : IO FileTree := do
  match path.string? with
  | none => return tree
  | some name =>
    try
      let content ← IO.FS.readBinFile name
      return tree.add path (.file content.toList)
    catch _ => return tree

def sidePaths (contract : Path) : List Text :=
  [".nefdbgnfo", ".debug.json", ".manifest.json"].filterMap fun suffix =>
    match contract.withSuffix suffix with
    | .ok p => some p.text
    | .error _ => none

def documentPaths (machine : Machine) (tree : FileTree) (contract : Path) : List Text :=
  match DebugInfo.load machine tree contract with
  | .ok (some info) => info.documents.map info.documentPath
  | _ => []

def filesFor (machine : Machine) (input : Text) : IO FileTree := do
  let tree ← addFile [] input
  if tree.isEmpty then return tree
  let contract := Path.ofText input
  let tree ← (sidePaths contract).foldlM addFile tree
  (documentPaths machine tree contract).foldlM addFile tree

def environment : IO Environment := do
  let rows ← Settings.variableNames.mapM fun name => do
    return (← IO.getEnv name).map (fun value => (name, Text.ofString value))
  return rows.filterMap id

def thisMachine : Machine := ⟨990, 1099511627776, by decide⟩

def world (arguments : List Text) : IO Command.World := do
  let files ← match Arguments.parse arguments with
    | .ok args => filesFor thisMachine args.input
    | .error _ => pure []
  return ⟨arguments, ← environment, files, [fun _ => .refused "no transport available"],
    thisMachine, fun text => text.string?.isSome⟩

end NeoListing

open NeoListing in
def main (arguments : List String) : IO UInt32 := do
  let report := Command.run (← world (arguments.map Text.ofString))
  (← IO.getStdout).putStr report.output.shown
  (← IO.getStderr).putStr report.errors.shown
  match report.status with
  | .exit code => return UInt32.ofNat code
  | .raised failure =>
    (← IO.getStderr).putStrLn failure.message.shown
    return 1

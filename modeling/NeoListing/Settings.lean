import NeoListing.Table
import NeoListing.Text.Blank
import NeoListing.Text.Upper

/-! # Settings

What the environment can change about a run.
-/

namespace NeoListing

/-- The variables of the environment by name, as loading a `.env` file leaves them. -/
abbrev Environment := Table String Text

structure Settings where
  disableColours : Bool
  nodeUrl : Text
  /-- Notices below this level are not shown. -/
  level : Nat
  deriving DecidableEq, Repr

namespace Settings

structure Error where
  level : Text
  deriving DecidableEq, Repr

def Error.message (e : Error) : Text := "Invalid DUMPNEF_LOG_LEVEL: " ++ e.level

def levels : Table String Nat :=
  [("NOTSET", 0), ("DEBUG", 10), ("INFO", 20), ("WARNING", 30), ("WARN", 30), ("ERROR", 40),
    ("CRITICAL", 50), ("FATAL", 50)]

def noticeLevel : Nat := 10

def variableNames : List String :=
  ["DUMPNEF_DISABLE_COLORS", "NO_COLOR", "DUMPNEF_RPC_URL", "DUMPNEF_LOG_LEVEL"]

def defaultNode : String := "http://seed1.neo.org:10332"

def isYes (value : Text) : Bool :=
  ["1", "true", "yes", "on"].any fun word =>
    Text.ofString word == (Text.trim value).map (CodePoint.mapChar Char.toLower)

def level? (name : Text) : Option Nat :=
  (levels.find? (fun row => Text.ofString row.1 == name)).map Prod.snd

def load (env : Environment) : Except Error Settings :=
  let name := Text.upper (Text.trim ((env.get? "DUMPNEF_LOG_LEVEL").getD "WARNING"))
  match level? name with
  | none => .error ⟨name⟩
  | some level =>
    .ok ⟨isYes ((env.get? "DUMPNEF_DISABLE_COLORS").getD "") || (env.get? "NO_COLOR").getD "" != "",
      (env.get? "DUMPNEF_RPC_URL").getD defaultNode, level⟩

end Settings

end NeoListing

import NeoListing.Text.Digit
import NeoListing.Text.Quoted
import NeoListing.Text.Split

/-! # Arguments of the command

Arguments are first told apart one by one and then taken from left to right. Long options
may be cut short as long as they stay unique, short ones may be joined, and after two
dashes all arguments are plain.
-/

namespace NeoListing

inductive Switch where
  | help
  | disableColours
  | methodTokens
  | rpc
  | rpcUrl
  | verbose
  deriving DecidableEq, Repr

namespace Switch

def spellings : List (String × Switch) :=
  [("-h", help), ("--help", help), ("--disable-colors", disableColours),
    ("--method-tokens", methodTokens), ("--rpc", rpc), ("--rpc-url", rpcUrl), ("-v", verbose),
    ("--verbose", verbose)]

def ofSpelling? (t : Text) : Option Switch :=
  (spellings.find? (fun row => Text.ofString row.1 == t)).map Prod.snd

def title (s : Switch) : String :=
  "/".intercalate ((spellings.filter (fun row => row.2 == s)).map Prod.fst)

end Switch

structure Arguments where
  input : Text
  disableColours : Bool
  methodTokens : Bool
  rpc : Bool
  rpcUrl : Option Text
  verbose : Bool
  deriving DecidableEq, Repr

namespace Arguments

inductive UsageError where
  | ambiguous (argument : Text) (candidates : List String)
  | valueNotTaken (switch : Switch) (value : Text)
  | valueExpected (switch : Switch)
  | inputMissing
  | unrecognized (arguments : List Text)
  deriving DecidableEq, Repr

def UsageError.message : UsageError → Text
  | .ambiguous argument candidates =>
    "ambiguous option: " ++ argument ++ " could match " ++ ", ".intercalate candidates
  | .valueNotTaken switch value =>
    "argument " ++ switch.title ++ ": ignored explicit argument " ++ Text.quoted value
  | .valueExpected switch => "argument " ++ switch.title ++ ": expected one argument"
  | .inputMissing => "the following arguments are required: input"
  | .unrecognized arguments => "unrecognized arguments: " ++ (" " : Text).intercalate arguments

/-! ## Telling arguments apart -/

structure Use where
  switch : Switch
  /-- Whether it is written with a single dash. -/
  short : Bool
  /-- What stands after an equals sign, or after the letter of a short spelling. -/
  value : Option Text

inductive Item where
  | plain (text : Text)
  /-- The two dashes after which all is plain. -/
  | divider
  | use (use : Use)
  | unknown (text : Text)

def Item.text : Item → Text
  | .plain text => text
  | .divider => "--"
  | .use _ => ""
  | .unknown text => text

def Item.isOption : Item → Bool
  | .use _ => true
  | .unknown _ => true
  | _ => false

/-- Digits to the end of a text, which may be one line feed. -/
def allDigits (t : Text) : Bool :=
  let digit := CodePoint.isIn Text.isDigit
  !(t.takeWhile digit).isEmpty && (t.dropWhile digit == [] || t.dropWhile digit == "\n")

def isNegativeNumber : Text → Bool
  | .scalar '-' :: rest =>
    allDigits rest ||
      match rest.dropWhile (CodePoint.isIn Text.isDigit) with
      | .scalar '.' :: fraction => allDigits fraction
      | _ => false
  | _ => false

/-- An argument that is no option although it starts with a dash, or an unknown option. -/
def unmatched (argument : Text) : Item :=
  if isNegativeNumber argument || argument.contains (.scalar ' ') then .plain argument
  else .unknown argument

def candidates (start : Text) : List (String × Switch) :=
  Switch.spellings.filter (fun row => start.isPrefixOf (Text.ofString row.1))

def valueOf (argument : Text) : Option Text :=
  if argument.contains (.scalar '=') then some (Text.cut (.scalar '=') argument).2 else none

def classifyLong (argument : Text) : Except UsageError Item :=
  match candidates (Text.cut (.scalar '=') argument).1 with
  | [] => .ok (unmatched argument)
  | [(_, switch)] => .ok (.use ⟨switch, false, valueOf argument⟩)
  | many => .error (.ambiguous argument (many.map Prod.fst))

def classifyShort (argument : Text) : Item :=
  match Switch.ofSpelling? (argument.take 2) with
  | some switch => .use ⟨switch, true, some (argument.drop 2)⟩
  | none => unmatched argument

def isShort (argument : Text) : Bool := (argument.drop 1).head? != some (.scalar '-')

def classify (argument : Text) : Except UsageError Item :=
  if argument.head? ≠ some (.scalar '-') then .ok (.plain argument)
  else match Switch.ofSpelling? argument with
    | some switch => .ok (.use ⟨switch, isShort argument, none⟩)
    | none =>
      if argument.length = 1 then .ok (.plain argument)
      else match valueOf argument, Switch.ofSpelling? (Text.cut (.scalar '=') argument).1 with
        | some value, some switch => .ok (.use ⟨switch, isShort argument, some value⟩)
        | _, _ =>
          if isShort argument then .ok (classifyShort argument) else classifyLong argument

def classifyAll : List Text → Except UsageError (List Item)
  | [] => .ok []
  | argument :: rest =>
    if argument = "--" then .ok (.divider :: rest.map .plain)
    else do
      let item ← classify argument
      return item :: (← classifyAll rest)

/-! ## Taking them -/

inductive Stop where
  | help
  | usage (e : UsageError)
  deriving DecidableEq, Repr

structure Taken where
  switches : List Switch
  rpcUrl : Option Text
  input : Option Text
  surplus : List Text

namespace Taken

def none : Taken := ⟨[], .none, .none, []⟩

def addSurplus (t : Taken) (texts : List Text) : Taken :=
  ⟨t.switches, t.rpcUrl, t.input, t.surplus ++ texts⟩

def addPlain (t : Taken) (text : Text) : Taken :=
  match t.input with
  | .none => ⟨t.switches, t.rpcUrl, some text, t.surplus⟩
  | some _ => t.addSurplus [text]

def setUrl (t : Taken) (url : Option Text) : Taken :=
  ⟨t.switches, url, t.input, t.surplus⟩

def turnOn (t : Taken) (switches : List Switch) : Except Stop Taken :=
  if switches.contains .help then .error .help
  else .ok ⟨t.switches ++ switches, t.rpcUrl, t.input, t.surplus⟩

end Taken

/-- The switches whose letters follow that of `switch` behind a single dash. A letter that
is no switch makes it and all after it a value of the switch before. -/
def joined (switch : Switch) : Text → Except UsageError (List Switch)
  | [] => .ok []
  | c :: rest =>
    match Switch.ofSpelling? [.scalar '-', c] with
    | Option.none => .error (.valueNotTaken switch (c :: rest))
    | some next => (joined next rest).map (next :: ·)

/-- Takes an option that has no argument of its own. A value attached to a short spelling
holds the letters of further switches. -/
def takeFlag (t : Taken) (u : Use) : Except Stop Taken :=
  match u.value with
  | Option.none => t.turnOn [u.switch]
  | some value =>
    if u.short && !value.isEmpty then
      match joined u.switch value with
      | .error e => .error (.usage e)
      | .ok more => t.turnOn (u.switch :: more)
    else .error (.usage (.valueNotTaken u.switch value))

/-- The address in a value attached to its option. Two dashes stand for none. -/
def attachedUrl (value : Text) : Option Text :=
  if value = "--" then Option.none else some value

/-- The end of the arguments, where no options are left. The divider next to the input
goes with it. -/
def takeLast (t : Taken) (items : List Item) : Taken :=
  match t.input, items with
  | Option.none, .divider :: .plain text :: rest =>
    (t.addPlain text).addSurplus (rest.map Item.text)
  | Option.none, .plain text :: .divider :: rest =>
    (t.addPlain text).addSurplus (rest.map Item.text)
  | Option.none, .plain text :: rest => (t.addPlain text).addSurplus (rest.map Item.text)
  | _, items => t.addSurplus (items.map Item.text)

def take (t : Taken) : List Item → Except Stop Taken
  | [] => .ok t
  | .plain text :: rest =>
    if rest.any Item.isOption then take (t.addPlain text) rest
    else .ok (takeLast t (.plain text :: rest))
  | .divider :: rest => .ok (takeLast t (.divider :: rest))
  | .unknown text :: rest => take (t.addSurplus [text]) rest
  | .use u :: rest =>
    if u.switch = .rpcUrl then
      match u.value, rest with
      | some value, rest => take (t.setUrl (attachedUrl value)) rest
      | Option.none, .plain url :: rest => take (t.setUrl (some url)) rest
      | Option.none, _ => .error (.usage (.valueExpected u.switch))
    else
      match takeFlag t u with
      | .error stop => .error stop
      | .ok t => take t rest

def finish (t : Taken) : Except Stop Arguments :=
  match t.input with
  | Option.none => .error (.usage .inputMissing)
  | some input =>
    if t.surplus.isEmpty then
      .ok ⟨input, t.switches.contains .disableColours, t.switches.contains .methodTokens,
        t.switches.contains .rpc, t.rpcUrl, t.switches.contains .verbose⟩
    else .error (.usage (.unrecognized t.surplus))

def parse (arguments : List Text) : Except Stop Arguments :=
  match classifyAll arguments with
  | .error e => .error (.usage e)
  | .ok items =>
    match take .none items with
    | .error stop => .error stop
    | .ok t => finish t

/-! ## Texts -/

def usage : String :=
  "usage: dumpnef [-h] [--disable-colors] [--method-tokens] [--rpc]\n"
    ++ "               [--rpc-url RPC_URL] [-v]\n"
    ++ "               input\n"

def helpText : String :=
  usage
    ++ "\nDump the instructions of a Neo N3 contract\n"
    ++ "\npositional arguments:\n"
    ++ "  input              Path to .NEF file or contract hex string\n"
    ++ "\noptions:\n"
    ++ "  -h, --help         show this help message and exit\n"
    ++ "  --disable-colors   Disable colors in Neo VM output\n"
    ++ "  --method-tokens    List the contract's method tokens instead of its\n"
    ++ "                     instructions\n"
    ++ "  --rpc              Treat input as a deployed contract hash and fetch it over\n"
    ++ "                     RPC\n"
    ++ "  --rpc-url RPC_URL  RPC node for --rpc (default: DUMPNEF_RPC_URL or\n"
    ++ "                     seed1.neo.org)\n"
    ++ "  -v, --verbose      Log diagnostics to stderr\n"

def UsageError.report (e : UsageError) : Text :=
  usage ++ "dumpnef: error: " ++ e.message ++ "\n"

end Arguments

end NeoListing

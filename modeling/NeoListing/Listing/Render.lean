import NeoListing.Listing.Entry
import NeoListing.Machine

/-! # Listings as text

One line for each entry, and a blank line between entries of different addresses. The
parts of a line may be coloured.
-/

namespace NeoListing

inductive Colour where
  | yellow
  | blue
  | green
  | magenta
  | cyan
  deriving DecidableEq, Repr

namespace Colour

def code : Colour → String
  | yellow => "\x1b[33m"
  | blue => "\x1b[34m"
  | green => "\x1b[32m"
  | magenta => "\x1b[35m"
  | cyan => "\x1b[36m"

def reset : String := "\x1b[0m"

end Colour

namespace Render

def paint (colours : Bool) (colour : Colour) (text : Text) : Text :=
  if colours then colour.code ++ text ++ Colour.reset else text

inductive Error where
  | negativeWidth (width : Int)
  | hugeWidth (width : Int)
  | tooManyDigits
  | noMemory (width : Int)
  deriving DecidableEq, Repr

def Error.message : Error → String
  | .negativeWidth width =>
    "Invalid format specifier '0" ++ toString width ++ "d' for object of type 'int'"
  | .hugeWidth _ => "Too many decimal digits in format string"
  | .tooManyDigits => Text.limitMessage ""
  | .noMemory _ => ""

def maxWidth : Int := Nat.pow 2 63 - 1

def number (n : Int) : Except Error String :=
  match Text.decimal? n with
  | some s => .ok s
  | none => .error .tooManyDigits

def padded (width : Nat) (text : String) : String :=
  let sign := text.toList.takeWhile (· == '-')
  let digits := text.toList.dropWhile (· == '-')
  String.ofList (sign ++ List.replicate (width - text.length) '0' ++ digits)

/-- The width is itself written into the format, then checked, before the address is written. -/
def addressText (machine : Machine) (width address : Int) : Except Error String := do
  let _ ← number width
  if width < 0 then throw (.negativeWidth width)
  if maxWidth < width then throw (.hugeWidth width)
  let digits ← number address
  if machine.room < width then throw (.noMemory width)
  return padded width.toNat digits

def operandText (name operand : String) : String :=
  if operand = "" then " " ++ name else " " ++ name ++ " " ++ operand

def commentText (colours : Bool) (comment : Text) : Text :=
  if comment = [] then [] else paint colours .green (" # " ++ comment)

def entry (machine : Machine) (width : Int) (colours : Bool) : Entry → Except Error Text
  | .methodStart _ name => .ok (paint colours .magenta ("# Method Start " ++ name))
  | .methodEnd _ name => .ok (paint colours .magenta ("# Method End " ++ name))
  | .source _ fileName line text => do
    let line ← number line
    return paint colours .cyan ("# Code " ++ fileName ++ " line " ++ line ++ ": \"" ++ text ++ "\"")
  | .instruction address name operand comment => do
    let address ← addressText machine width address
    return paint colours .yellow address ++ paint colours .blue (operandText name operand)
      ++ commentText colours comment

def linesFrom (machine : Machine) (width : Int) (colours : Bool) (last : Option Int) :
    List Entry → Except Error (List Text)
  | [] => .ok []
  | e :: rest => do
    let line ← entry machine width colours e
    let more ← linesFrom machine width colours (some e.address) rest
    let gap := match last with
      | some address => if e.address = address then [] else [[]]
      | none => []
    return gap ++ line :: more

def lines (machine : Machine) (width : Int) (colours : Bool) (plan : List Entry) :
    Except Error (List Text) :=
  linesFrom machine width colours none plan

def listing (machine : Machine) (width : Int) (colours : Bool) (plan : List Entry) :
    Except Error Text :=
  (lines machine width colours plan).map ("\n" : Text).intercalate

def written (lines : List Text) : Text :=
  lines.flatMap (fun line => line ++ "\n")

end Render

end NeoListing

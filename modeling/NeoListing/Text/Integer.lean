import NeoListing.Hex
import NeoListing.Text.Blank
import NeoListing.Text.Digit
import NeoListing.Text.Quoted

/-! # Integers in text

Reads a decimal integer: blanks around it, a sign, digits of any script, and single
underscores between digits. The number of digits is limited, also when one is written.
-/

namespace NeoListing.Text

def digitLimit : Nat := 4300

inductive IntegerError where
  | notAnInteger (text : Text)
  | tooManyDigits (count : Nat)
  deriving DecidableEq, Repr

def limitMessage (count : String) : String :=
  "Exceeds the limit (" ++ toString digitLimit ++ " digits) for integer string conversion" ++ count
    ++ "; use sys.set_int_max_str_digits() to increase the limit"

/-- A faulty text is shown quoted, and no more than 200 characters of it. -/
def IntegerError.message : IntegerError → String
  | .notAnInteger text =>
    "invalid literal for int() with base 10: " ++ String.ofList ((quoted text).toList.take 200)
  | .tooManyDigits count => limitMessage (": value has " ++ toString count ++ " digits")

/-- Blanks and digits beyond ASCII stand for a space and for the ASCII digit of their value. -/
def plainChar (c : Char) : Char :=
  if c.toNat < 127 then c
  else if isBlank c then ' '
  else match digitValue? c with
    | some v => Nat.digitChar v
    | none => '?'

def plainPoint : CodePoint → Char
  | .scalar c => plainChar c
  | .surrogate _ => '?'

/-- No underscore at either end and no two in a row. -/
def underscoresFit : List Char → Bool
  | [] => true
  | '_' :: _ => false
  | [_] => true
  | _ :: '_' :: '_' :: _ => false
  | _ :: '_' :: rest => !rest.isEmpty && underscoresFit rest
  | _ :: rest => underscoresFit rest

def boundedDigits (cs : List Char) : Except IntegerError Nat :=
  if digitLimit < cs.length then .error (.tooManyDigits cs.length) else .ok (digitsValue cs)

def isNegative : List Char → Bool
  | '-' :: _ => true
  | _ => false

def dropSign : List Char → List Char
  | '-' :: rest => rest
  | '+' :: rest => rest
  | cs => cs

def applySign (negative : Bool) (n : Nat) : Int :=
  if negative then -(n : Int) else n

def integer (text : Text) : Except IntegerError Int := do
  let signed := (text.map plainPoint).dropWhile Hex.isBlank
  let unsigned := dropSign signed
  let inNumber (c : Char) : Bool := c.isDigit || c == '_'
  let body := unsigned.takeWhile inNumber
  let rest := unsigned.dropWhile inNumber
  if !underscoresFit body then throw (.notAnInteger text)
  let digits := body.filter (· != '_')
  let n ← boundedDigits digits
  if digits.isEmpty || !rest.all Hex.isBlank then throw (.notAnInteger text)
  return applySign (isNegative signed) n

def decimal? (n : Int) : Option String :=
  if (Nat.toDigits 10 n.natAbs).length ≤ digitLimit then some (toString n) else none

end NeoListing.Text

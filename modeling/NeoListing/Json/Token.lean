import NeoListing.Hex
import NeoListing.Json.Value
import NeoListing.Text.Integer

/-! # JSON tokens

Cuts JSON text into tokens. Places are kept as the number of characters from there to
the end of the text, so that no scanner needs to count from the front.
-/

namespace NeoListing.Json

inductive Complaint where
  | expectingValue
  | expectingName
  | expectingColon
  | expectingComma
  | extraData
  | unterminatedText
  | controlCharacter
  | badEscape
  | badNumberedEscape
  | byteOrderMark
  deriving DecidableEq, Repr

/-- A complaint about the place with `left` characters to the end of the text, or a value
beyond what is read: an integer that is too long, or a container inside too many others. -/
inductive Fault where
  | malformed (what : Complaint) (left : Nat)
  | tooManyDigits (count : Nat)
  | tooDeep
  deriving DecidableEq, Repr

inductive Lexeme where
  | openArray
  | closeArray
  | openObject
  | closeObject
  | comma
  | colon
  | text (s : Text)
  | scalar (value : Json)
  /-- A text that starts with a quote and has a fault inside. -/
  | brokenText (fault : Fault)
  /-- A number that is too long. -/
  | brokenNumber (fault : Fault)
  /-- A character that starts no token. -/
  | junk

structure Token where
  lexeme : Lexeme
  left : Nat

def isBlank (c : Char) : Bool :=
  c == ' ' || c == '\t' || c == '\n' || c == '\r'

def fourDigits? : List Char → Option Nat
  | a :: b :: c :: d :: _ => do
    let a ← Hex.digit? a
    let b ← Hex.digit? b
    let c ← Hex.digit? c
    let d ← Hex.digit? d
    return ((a * 16 + b) * 16 + c) * 16 + d
  | _ => none

def isHighHalf (n : Nat) : Bool := 0xD800 ≤ n && n < 0xDC00

def isLowHalf (n : Nat) : Bool := 0xDC00 ≤ n && n < 0xE000

def unitPoint (n : Nat) : CodePoint :=
  if isHighHalf n || isLowHalf n then .surrogate (Fin.ofNat 0x800 (n - 0xD800))
  else .scalar (Char.ofNat n)

/-- Reads the digits after `\u`, and a second escape when the two form a surrogate pair.
Gives the code point and the number of characters read. `cs` starts after the `u`, and `left`
counts from the `u`. A closing quote must still be able to follow the digits. -/
def numberedEscape (left : Nat) (cs : List Char) : Except Fault (CodePoint × Nat) :=
  if left ≤ 5 then .error (.malformed .badNumberedEscape left)
  else match fourDigits? cs with
    | none => .error (.malformed .badNumberedEscape left)
    | some high =>
      match isHighHalf high && 11 < left, cs.drop 4 with
      | true, '\\' :: 'u' :: rest =>
        match fourDigits? rest with
        | none => .error (.malformed .badNumberedEscape (left - 6))
        | some low =>
          if isLowHalf low then
            .ok (.scalar (Char.ofNat (0x10000 + (high - 0xD800) * 0x400 + (low - 0xDC00))), 10)
          else .ok (unitPoint high, 4)
      | _, _ => .ok (unitPoint high, 4)

def letterEscapes : List (Char × Char) :=
  [('"', '"'), ('\\', '\\'), ('/', '/'), ('b', Char.ofNat 0x08), ('f', Char.ofNat 0x0C),
    ('n', '\n'), ('r', '\r'), ('t', '\t')]

/-- Reads what follows a backslash: the code point meant and the number of characters
read. `left` counts from the backslash, `start` from the quote that opened the text. -/
def escape (start left : Nat) : List Char → Except Fault (CodePoint × Nat)
  | [] => .error (.malformed .unterminatedText start)
  | 'u' :: rest => (numberedEscape (left - 1) rest).map (fun r => (r.1, r.2 + 1))
  | c :: _ =>
    match letterEscapes.lookup c with
    | some meant => .ok (.scalar meant, 1)
    | none => .error (.malformed .badEscape left)

/-- Reads a text up to its closing quote: the text and the number of characters left after
the quote. `read` holds the code points so far, last first; `left` counts from the first
character of the list. -/
def textBody (start left : Nat) (read : Text) : List Char → Except Fault (Text × Nat)
  | [] => .error (.malformed .unterminatedText start)
  | c :: rest =>
    if c = '"' then .ok (read.reverse, left - 1)
    else if c = '\\' then
      match escape start left rest with
      | .error fault => .error fault
      | .ok (meant, n) => textBody start (left - 1 - n) (meant :: read) (rest.drop n)
    else if c.toNat < 0x20 then .error (.malformed .controlCharacter left)
    else textBody start (left - 1) (.scalar c :: read) rest
termination_by cs => cs.length
decreasing_by all_goals (simp only [List.length_drop, List.length_cons]; omega)

structure Numeral where
  negative : Bool
  whole : List Char
  fraction : Option (List Char)
  exponent : Option Int

def fractionOf : List Char → Option (List Char)
  | '.' :: rest =>
    let digits := rest.takeWhile Char.isDigit
    if digits.isEmpty then none else some digits
  | _ => none

def signLength : List Char → Nat
  | '-' :: _ => 1
  | '+' :: _ => 1
  | _ => 0

def exponentOf : List Char → Option (Int × Nat)
  | mark :: rest =>
    if mark = 'e' ∨ mark = 'E' then
      let unsigned := Text.dropSign rest
      let digits := unsigned.takeWhile Char.isDigit
      if digits.isEmpty then none
      else some (Text.applySign (Text.isNegative rest) (Text.digitsValue digits),
        1 + signLength rest + digits.length)
    else none
  | [] => none

def wholeDigits : List Char → List Char
  | '0' :: _ => ['0']
  | cs => cs.takeWhile Char.isDigit

def dropMinus : List Char → List Char
  | '-' :: rest => rest
  | cs => cs

def numeral? (cs : List Char) : Option (Numeral × Nat) :=
  let unsigned := dropMinus cs
  let minusLength := if Text.isNegative cs then 1 else 0
  let whole := wholeDigits unsigned
  if whole.isEmpty then none
  else
    let afterWhole := unsigned.drop whole.length
    let fraction := fractionOf afterWhole
    let fractionLength := match fraction with
      | some digits => digits.length + 1
      | none => 0
    let exponent := exponentOf (afterWhole.drop fractionLength)
    let exponentLength := match exponent with
      | some (_, n) => n
      | none => 0
    some (⟨Text.isNegative cs, whole, fraction, exponent.map Prod.fst⟩,
      minusLength + whole.length + fractionLength + exponentLength)

/-- As many digits can decide how a decimal rounds. Of those behind them it only matters
whether one is not zero. -/
def decidingDigits : Nat := 800

def Numeral.nearest (n : Numeral) : Binary64 :=
  let fraction := n.fraction.getD []
  let digits := (n.whole ++ fraction).dropWhile (· == '0')
  let exponent := n.exponent.getD 0 - fraction.length
  let rest := digits.drop decidingDigits
  if rest.isEmpty then Binary64.ofDecimal n.negative (Text.digitsValue digits) exponent
  else
    let last := if rest.all (· == '0') then '0' else '1'
    Binary64.ofDecimal n.negative (Text.digitsValue (digits.take decidingDigits ++ [last]))
      (exponent + rest.length - 1)

def Numeral.lexeme (n : Numeral) : Lexeme :=
  match n.fraction, n.exponent with
  | none, none =>
    match Text.boundedDigits n.whole with
    | .ok v => .scalar (.int (Text.applySign n.negative v))
    | .error _ => .brokenNumber (.tooManyDigits n.whole.length)
  | _, _ => .scalar (.float n.nearest)

def words : List (List Char × Json) :=
  [("null".toList, .null), ("true".toList, .bool true), ("false".toList, .bool false),
   ("NaN".toList, .float .nan), ("Infinity".toList, .float (.infinite false)),
   ("-Infinity".toList, .float (.infinite true))]

def lexeme (left : Nat) (c : Char) (rest : List Char) : Lexeme × Nat :=
  match c with
  | '[' => (.openArray, 0)
  | ']' => (.closeArray, 0)
  | '{' => (.openObject, 0)
  | '}' => (.closeObject, 0)
  | ',' => (.comma, 0)
  | ':' => (.colon, 0)
  | '"' =>
    match textBody left (left - 1) [] rest with
    | .ok (s, after) => (.text s, left - 1 - after)
    | .error fault => (.brokenText fault, 0)
  | _ =>
    match words.find? (fun w => w.1.isPrefixOf (c :: rest)) with
    | some (word, value) => (.scalar value, word.length - 1)
    | none =>
      match numeral? (c :: rest) with
      | some (n, length) => (n.lexeme, length - 1)
      | none => (.junk, 0)

def Lexeme.isBroken : Lexeme → Bool
  | .brokenText _ => true
  | .brokenNumber _ => true
  | .junk => true
  | _ => false

def tokens (left : Nat) : List Char → List Token
  | [] => []
  | c :: rest =>
    if isBlank c then tokens (left - 1) rest
    else
      let (l, more) := lexeme left c rest
      if l.isBroken then [⟨l, left⟩]
      else ⟨l, left⟩ :: tokens (left - 1 - more) (rest.drop more)
termination_by cs => cs.length
decreasing_by all_goals (simp only [List.length_drop, List.length_cons]; omega)

end NeoListing.Json

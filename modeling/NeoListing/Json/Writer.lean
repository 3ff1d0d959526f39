import NeoListing.Json.Value
import NeoListing.Number.Shortest
import NeoListing.Text.Quoted

/-! # Writing JSON

Compact JSON text in ASCII: characters beyond it are written as `\u` escapes, in pairs
above U+FFFF.
-/

namespace NeoListing.Json

def writeUnit (n : Nat) : List Char := '\\' :: 'u' :: Text.hexDigits 4 n

def writeChar (c : Char) : List Char :=
  if c = '"' ∨ c = '\\' then ['\\', c]
  else if 0x20 ≤ c.toNat ∧ c.toNat < 0x7F then [c]
  else if c.toNat < 0x10000 then writeUnit c.toNat
  else
    let n := c.toNat - 0x10000
    writeUnit (0xD800 + n / 0x400) ++ writeUnit (0xDC00 + n % 0x400)

def writePoint : CodePoint → List Char
  | .scalar c => writeChar c
  | p => writeUnit p.toNat

def writeText (s : Text) : String :=
  String.ofList ('"' :: (s.flatMap writePoint ++ ['"']))

def writeFloat : Binary64 → String
  | .nan => "NaN"
  | .infinite negative => if negative then "-Infinity" else "Infinity"
  | x => x.text

mutual

def write : Json → String
  | .null => "null"
  | .bool true => "true"
  | .bool false => "false"
  | .int n => toString n
  | .float x => writeFloat x
  | .text s => writeText s
  | .array items => "[" ++ ",".intercalate (writeItems items) ++ "]"
  | .object members => "\x7b" ++ ",".intercalate (writeMembers members) ++ "\x7d"

def writeItems : List Json → List String
  | [] => []
  | v :: rest => write v :: writeItems rest

def writeMembers : List (Text × Json) → List String
  | [] => []
  | (name, v) :: rest => (writeText name ++ ":" ++ write v) :: writeMembers rest

end

end NeoListing.Json

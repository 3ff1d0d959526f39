import NeoListing.Bytes
import NeoListing.Text.Basic
import NeoListing.Text.Printable

/-! # Quoted text

The form in which messages show a text or a byte string. Single quotes surround it,
unless it holds a single quote and no double quote. The quote in use and the backslash
get a backslash; characters that cannot be shown are written by number.
-/

namespace NeoListing.Text

def quoteFor (hasSingle hasDouble : Bool) : Char :=
  if hasSingle && !hasDouble then '"' else '\''

def hexDigits (width n : Nat) : List Char :=
  let digits := Nat.toDigits 16 n
  List.replicate (width - digits.length) '0' ++ digits

def numbered (n : Nat) : List Char :=
  if n < 0x100 then '\\' :: 'x' :: hexDigits 2 n
  else if n < 0x10000 then '\\' :: 'u' :: hexDigits 4 n
  else '\\' :: 'U' :: hexDigits 8 n

def quotedChar (quote : Char) (shown : Char → Bool) (c : Char) : List Char :=
  if c = quote ∨ c = '\\' then ['\\', c]
  else if c = '\t' then ['\\', 't']
  else if c = '\n' then ['\\', 'n']
  else if c = '\r' then ['\\', 'r']
  else if shown c then [c]
  else numbered c.toNat

def quotedPoint (quote : Char) (shown : Char → Bool) : CodePoint → List Char
  | .scalar c => quotedChar quote shown c
  | p => numbered p.toNat

def quotedList (shown : Char → Bool) (t : Text) : List Char :=
  let quote := quoteFor (t.contains (.scalar '\'')) (t.contains (.scalar '"'))
  quote :: (t.flatMap (quotedPoint quote shown) ++ [quote])

def quoted (t : Text) : String :=
  String.ofList (quotedList isPrintable t)

/-- Byte strings are shown as the characters of their ASCII bytes, behind a `b`. -/
def quotedBytes (bs : Bytes) : String :=
  String.ofList ('b' :: quotedList (fun c => 0x20 ≤ c.toNat && c.toNat < 0x7F)
    (bs.map (fun b => .scalar (Char.ofNat b.toNat))))

end NeoListing.Text

/-! # Text

A text is a row of code points. Most are characters, but an escape in JSON can also name one
half of a surrogate pair, so a text may hold halves that stand alone. Where that cannot be, as in
decoded bytes, a `String` does.
-/

namespace NeoListing

inductive CodePoint where
  | scalar (c : Char)
  /-- Half of a surrogate pair, numbered from U+D800. -/
  | surrogate (index : Fin 0x800)
  deriving DecidableEq, Repr

namespace CodePoint

instance : Coe Char CodePoint := ⟨.scalar⟩

def toNat : CodePoint → Nat
  | scalar c => c.toNat
  | surrogate index => 0xD800 + index

def char? : CodePoint → Option Char
  | scalar c => some c
  | surrogate _ => none

def charOr (other : Char) : CodePoint → Char
  | scalar c => c
  | surrogate _ => other

def isIn (set : Char → Bool) : CodePoint → Bool
  | scalar c => set c
  | surrogate _ => false

def mapChar (f : Char → Char) : CodePoint → CodePoint
  | scalar c => scalar (f c)
  | p => p

end CodePoint

abbrev Text := List CodePoint

namespace Text

def ofString (s : String) : Text := s.toList.map .scalar

instance : Coe String Text := ⟨ofString⟩

def chars (t : Text) : List Char := t.filterMap CodePoint.char?

def chars? (t : Text) : Option (List Char) := t.mapM CodePoint.char?

def string? (t : Text) : Option String := t.chars?.map String.ofList

/-- A text for output that takes characters only; U+FFFD stands for anything else. -/
def shown (t : Text) : String := String.ofList (t.map (CodePoint.charOr (Char.ofNat 0xFFFD)))

end Text

end NeoListing

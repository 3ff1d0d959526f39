import NeoListing.Text.Basic

/-! # Blanks

White space at the ends of a text: the ASCII blanks, the four ASCII separators, and
the spaces and separators beyond ASCII.
-/

namespace NeoListing.Text

def isBlank (c : Char) : Bool :=
  let n := c.toNat
  (0x09 ≤ n && n ≤ 0x0D) || (0x1C ≤ n && n ≤ 0x20) || n == 0x85 || n == 0xA0 || n == 0x1680
    || (0x2000 ≤ n && n ≤ 0x200A) || n == 0x2028 || n == 0x2029 || n == 0x202F || n == 0x205F
    || n == 0x3000

def trimList {α : Type} (blank : α → Bool) (cs : List α) : List α :=
  ((cs.dropWhile blank).reverse.dropWhile blank).reverse

def trim (t : Text) : Text := trimList (CodePoint.isIn isBlank) t

end NeoListing.Text

/-! # Floating-point numbers

Double-precision numbers as exact values. A decimal is read by rounding the rational
number it stands for to the nearest double, a tie going to the even neighbour.
-/

namespace NeoListing

/-- `finite negative m e` is `m * 2 ^ e` with its sign. -/
inductive Binary64 where
  | nan
  | infinite (negative : Bool)
  | finite (negative : Bool) (mantissa : Nat) (exponent : Int)
  deriving DecidableEq, Repr

namespace Binary64

def roundQuotient (num den : Nat) : Nat :=
  let q := num / den
  let twice := 2 * (num % den)
  if twice < den then q
  else if den < twice then q + 1
  else if q % 2 = 0 then q else q + 1

def scale (num den : Nat) (e : Int) : Nat × Nat :=
  if 0 ≤ e then (num, den * Nat.pow 2 e.toNat) else (num * Nat.pow 2 (-e).toNat, den)

def leastExponent : Int := -1074

/-- The exponent at which `num / den` has 53 significant bits, or the least exponent. -/
def exponentFor (num den : Nat) : Int :=
  let e := (Nat.log2 num : Int) - (Nat.log2 den : Int) - 53
  let (n, d) := scale num den e
  max leastExponent (if Nat.pow 2 53 ≤ n / d then e + 1 else e)

def ofQuotient (negative : Bool) (num den : Nat) : Binary64 :=
  let e := exponentFor num den
  let (n, d) := scale num den e
  let m := roundQuotient n d
  let (m, e) := if Nat.pow 2 53 ≤ m then (m / 2, e + 1) else (m, e)
  if 971 < e then .infinite negative
  else if m = 0 then .finite negative 0 0
  else .finite negative m e

def decimalLength (n : Nat) : Nat := (Nat.toDigits 10 n).length

/-- The double nearest to `digits * 10 ^ exponent`. Sizes far outside the range are
decided without computing the power. -/
def ofDecimal (negative : Bool) (digits : Nat) (exponent : Int) : Binary64 :=
  let size := exponent + decimalLength digits
  if digits = 0 then .finite negative 0 0
  else if 310 < size then .infinite negative
  else if size < -330 then .finite negative 0 0
  else if 0 ≤ exponent then ofQuotient negative (digits * Nat.pow 10 exponent.toNat) 1
  else ofQuotient negative digits (Nat.pow 10 (-exponent).toNat)

def isZero : Binary64 → Bool
  | .finite _ m _ => m == 0
  | _ => false

def truncate (negative : Bool) (mantissa : Nat) (exponent : Int) : Int :=
  let n :=
    if 0 ≤ exponent then mantissa * Nat.pow 2 exponent.toNat
    else mantissa / Nat.pow 2 (-exponent).toNat
  if negative then -(n : Int) else n

end Binary64

end NeoListing

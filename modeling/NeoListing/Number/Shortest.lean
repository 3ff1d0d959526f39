import NeoListing.Number.Binary64

/-! # Shortest decimal text of a double

The fewest significant digits that read back as the same double; of two such rows of
equal length the nearer one.
-/

namespace NeoListing.Binary64

def quotient (mantissa : Nat) (exponent : Int) : Nat × Nat :=
  if 0 ≤ exponent then (mantissa * Nat.pow 2 exponent.toNat, 1)
  else (mantissa, Nat.pow 2 (-exponent).toNat)

/-- The `p` with `10 ^ (p - 1) ≤ num / den < 10 ^ p`. -/
def pointPlace (num den : Nat) : Int :=
  if den ≤ num then decimalLength (num / den)
  else 1 - (decimalLength ((den + num - 1) / num - 1) : Int)

structure Decimal where
  digits : Nat
  exponent : Int

def scaleTen (num den : Nat) (k : Int) : Nat × Nat :=
  if 0 ≤ k then (num, den * Nat.pow 10 k.toNat) else (num * Nat.pow 10 (-k).toNat, den)

def onGrid (mantissa : Nat) (exponent : Int) (count : Nat) : Option Decimal :=
  let (num, den) := quotient mantissa exponent
  let k := pointPlace num den - count
  let (n, d) := scaleTen num den k
  let below := n / d
  let readsBack (digits : Nat) : Bool :=
    ofDecimal false digits k == .finite false mantissa exponent
  let nearer := if 2 * (n % d) < d then below
    else if d < 2 * (n % d) then below + 1
    else if below % 2 = 0 then below else below + 1
  let other := if nearer = below then below + 1 else below
  if readsBack nearer then some ⟨nearer, k⟩
  else if readsBack other then some ⟨other, k⟩
  else none

/-- Tries grids of ever more digits; seventeen digits always read back. -/
def shortestFrom (mantissa : Nat) (exponent : Int) (count : Nat) : Nat → Decimal
  | 0 => ⟨mantissa, exponent⟩
  | tries + 1 =>
    match onGrid mantissa exponent count with
    | some d => d
    | none => shortestFrom mantissa exponent (count + 1) tries

def shortest (mantissa : Nat) (exponent : Int) : List Char × Int :=
  let d := shortestFrom mantissa exponent 1 17
  let digits := Nat.toDigits 10 d.digits
  let kept := (digits.reverse.dropWhile (· == '0')).reverse
  (kept, d.exponent + digits.length)

/-- Positional from `0.0001` up to `10 ^ 16`, otherwise with an exponent of at least two
digits; a positional number always shows a fraction. -/
def layOut (digits : List Char) (point : Int) : List Char :=
  if -4 < point ∧ point ≤ 16 then
    if point ≤ 0 then '0' :: '.' :: (List.replicate (-point).toNat '0' ++ digits)
    else
      let whole := point.toNat
      let fraction := digits.drop whole
      digits.take whole ++ List.replicate (whole - digits.length) '0'
        ++ '.' :: (if fraction.isEmpty then ['0'] else fraction)
  else
    let e := point - 1
    let size := Nat.toDigits 10 e.natAbs
    let fraction := digits.drop 1
    digits.take 1 ++ (if fraction.isEmpty then [] else '.' :: fraction)
      ++ 'e' :: (if e < 0 then '-' else '+')
      :: (List.replicate (2 - size.length) '0' ++ size)

def text : Binary64 → String
  | .nan => "nan"
  | .infinite negative => if negative then "-inf" else "inf"
  | .finite negative mantissa exponent =>
    let sign := if negative then "-" else ""
    if mantissa = 0 then sign ++ "0.0"
    else
      let (digits, point) := shortest mantissa exponent
      sign ++ String.ofList (layOut digits point)

end NeoListing.Binary64

import NoiseGate.Decimal.Binary64
import NoiseGate.Text.Digits

/-!
# Shortest decimals

The shortest decimal of a magnitude has the fewest digits among those that are read back as it,
and is the nearest of these. `realText` writes it, positionally for moderate exponents.
-/

namespace NoiseGate

/-- A decimal fraction: the digits of a number, and the power of ten of the first of them. -/
structure ShortDecimal where
  digits : Bytes
  exponent : Int
  deriving DecidableEq

namespace Magnitude

/-- How many places behind the point the first digit of `num / den` stands, counted from `k` on. -/
def leadingZeros (num den : Nat) : Nat → Nat → Nat
  | 0, k => k
  | fuel + 1, k => if den ≤ num * Nat.pow 10 k then k else leadingZeros num den fuel (k + 1)

/-- The power of ten of the first digit of `num / den`. -/
def leadingPower (num den : Nat) : Int :=
  if den ≤ num then (decimal (num / den)).length - 1 else -(leadingZeros num den 400 1 : Nat)

/-- The decimals between which every number is read as this magnitude, in quarters of the last
binary place. The step below a power of two is half as long as the one above it. -/
def quarters (a : Magnitude) : Nat × Nat :=
  let below := if a.mantissa = 1 <<< 52 ∧ minExponent < a.exponent then 1 else 2
  (4 * a.mantissa - below, 4 * a.mantissa + 2)

/-- Whether `n * 10 ^ power` is read as this magnitude. The ends are, if the mantissa is even. -/
def readsBack (a : Magnitude) (n : Nat) (power : Int) : Bool :=
  let (low, high) := a.quarters
  let e := a.exponent - 2
  let x := (n * Nat.pow 10 power.toNat) <<< (-e).toNat
  let unit := Nat.pow 10 (-power).toNat <<< e.toNat
  if a.mantissa % 2 = 0 then low * unit ≤ x && x ≤ high * unit
  else low * unit < x && x < high * unit

/-- The nearest multiple of `10 ^ power` that is read as this magnitude, if one is. -/
def nearestMultiple (a : Magnitude) (power : Int) : Option Nat :=
  let num := a.ratio.1 * Nat.pow 10 (-power).toNat
  let den := a.ratio.2 * Nat.pow 10 power.toNat
  let below := num / den
  let nearest := roundDiv num den
  let other := if nearest = below then below + 1 else below
  if a.readsBack nearest power then some nearest
  else if a.readsBack other power then some other
  else none

/-- Tries ever finer powers of ten, from the first digit on. -/
def shortestFrom (a : Magnitude) (first : Int) : Nat → Nat → Nat × Int
  | 0, places => (roundDiv a.ratio.1 a.ratio.2, first - places)
  | fuel + 1, places =>
    match a.nearestMultiple (first - places) with
    | some n => (n, first - places)
    | none => shortestFrom a first fuel (places + 1)

def dropZeros (digits : Bytes) : Bytes := (digits.reverse.dropWhile (· = 48)).reverse

/-- The shortest decimal of a magnitude other than zero. Its last digit is zero only before
`dropZeros`, where a row of nines was rounded up. -/
def shortest (a : Magnitude) : ShortDecimal :=
  let (n, power) := a.shortestFrom (leadingPower a.ratio.1 a.ratio.2) 17 0
  let digits := decimal n
  ⟨dropZeros digits, power + digits.length - 1⟩

end Magnitude

namespace ShortDecimal

def zeros (n : Nat) : Bytes := List.replicate n 48

/-- Digits around a point, at least one on either side. -/
def positional (d : ShortDecimal) : Bytes :=
  if d.exponent < 0 then ascii "0." ++ zeros ((-d.exponent).toNat - 1) ++ d.digits
  else
    let places := d.exponent.toNat + 1
    let fraction := d.digits.drop places
    d.digits.take places ++ zeros (places - d.digits.length) ++ ascii "." ++
      if fraction.isEmpty then ascii "0" else fraction

/-- One digit, the others behind a point, and a signed exponent. -/
def scientific (d : ShortDecimal) : Bytes :=
  d.digits.take 1 ++ (if d.digits.length ≤ 1 then [] else ascii "." ++ d.digits.drop 1) ++
    ascii (if d.exponent < 0 then "e-" else "e+") ++ decimal d.exponent.natAbs

end ShortDecimal

/-- The exponents of the numbers that are written positionally. -/
def positionalExponents : Int × Int := (-5, 15)

def realText (negative : Bool) (a : Magnitude) : Bytes :=
  (if negative then ascii "-" else []) ++
    if a.mantissa = 0 then ascii "0.0"
    else
      let d := a.shortest
      if positionalExponents.1 ≤ d.exponent ∧ d.exponent ≤ positionalExponents.2 then d.positional
      else d.scientific

end NoiseGate

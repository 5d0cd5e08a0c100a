/-!
# Binary64 magnitudes

A magnitude is a mantissa of at most 53 bits times a power of two. Every operation rounds its exact
result to the nearest magnitude, and a tie to the even mantissa. A result above all magnitudes has
none.
-/

namespace NoiseGate

structure Magnitude where
  mantissa : Nat
  exponent : Int
  deriving DecidableEq

/-- The quotient rounded to the nearest number, a half to the even one. -/
def roundDiv (num den : Nat) : Nat :=
  let q := num / den
  let r := num % den
  if den < 2 * r ∨ (2 * r = den ∧ q % 2 = 1) then q + 1 else q

namespace Magnitude

def minExponent : Int := -1074

def maxExponent : Int := 971

def zero : Magnitude := ⟨0, minExponent⟩

/-- The magnitude of the fraction `num / den`. -/
def round (num den : Nat) : Option Magnitude :=
  if num = 0 then some zero
  else
    let low : Int := (num.log2 : Int) - den.log2 - 53
    let scaled (e : Int) : Nat × Nat := (num <<< (-e).toNat, den <<< e.toNat)
    let e := if (scaled low).1 / (scaled low).2 < 1 <<< 53 then low else low + 1
    let e := max e minExponent
    let m := roundDiv (scaled e).1 (scaled e).2
    let (m, e) := if m = 1 <<< 53 then (1 <<< 52, e + 1) else (m, e)
    if maxExponent < e then none else some ⟨m, e⟩

/-- Numerator and denominator of the value. -/
def ratio (a : Magnitude) : Nat × Nat :=
  (a.mantissa <<< a.exponent.toNat, 1 <<< (-a.exponent).toNat)

def mul (a b : Magnitude) : Option Magnitude :=
  round (a.ratio.1 * b.ratio.1) (a.ratio.2 * b.ratio.2)

def div (a b : Magnitude) : Option Magnitude :=
  round (a.ratio.1 * b.ratio.2) (a.ratio.2 * b.ratio.1)

/-- Scales by a power of ten, with one rounding for the power and one for the product. Powers
below the least that is at hand are reached in several divisions. -/
def scale (a : Magnitude) (power : Int) : Option Magnitude :=
  if a.mantissa = 0 then some a
  else if 308 < power then none
  else if 0 ≤ power then do a.mul (← round (Nat.pow 10 power.toNat) 1)
  else if -308 ≤ power then do a.div (← round (Nat.pow 10 (-power).toNat) 1)
  else do (← a.div (← round (Nat.pow 10 308) 1)).scale (power + 308)
termination_by (-power).toNat
decreasing_by omega

end Magnitude

end NoiseGate

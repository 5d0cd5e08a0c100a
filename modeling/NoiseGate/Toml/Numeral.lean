import NoiseGate.Decimal.Binary64
import NoiseGate.Toml.Item
import NoiseGate.Toml.Quoted

/-!
# Numbers in TOML

Digits may have single underscores between them. Decimal numbers have no idle zeros in front.
Integers lie in the union of the signed and the unsigned range of 128 bits. A real number is kept
as such only; its digits must not exceed all magnitudes.
-/

namespace NoiseGate.Toml

/-- Digits without the underscores between them. -/
def digits? (isDigit : Char → Bool) : Text → Option Text
  | [] => none
  | [c] => if isDigit c then some [c] else none
  | c :: '_' :: s => if isDigit c then (digits? isDigit s).map (c :: ·) else none
  | c :: s => if isDigit c then (digits? isDigit s).map (c :: ·) else none

def valueIn (base : Nat) (digits : Text) : Nat :=
  digits.foldl (fun n c => base * n + (hexValue? c).getD 0) 0

def splitSign : Text → Bool × Text
  | '-' :: s => (true, s)
  | '+' :: s => (false, s)
  | s => (false, s)

/-- Digits of a decimal number without idle zeros. -/
def whole? (s : Text) : Option Text := do
  let digits ← digits? Char.isDigit s
  if digits.head? = some '0' && 1 < digits.length then none else some digits

def inRange (n : Int) : Bool := -(1 <<< 127 : Nat) ≤ n && n < (1 <<< 128 : Nat)

/-- A decimal integer, with or without a sign. -/
def decimal? (s : Text) : Option Int :=
  let (negative, s) := splitSign s
  (whole? s).map fun digits =>
    let n : Int := valueIn 10 digits
    if negative then -n else n

/-- An integer whose base is given by what it begins with. -/
def unbounded? : Text → Option Int
  | '0' :: 'x' :: s =>
    (digits? (fun c => (hexValue? c).isSome) s).map fun ds => (valueIn 16 ds : Int)
  | '0' :: 'o' :: s =>
    (digits? (fun c => '0' ≤ c && c ≤ '7') s).map fun ds => (valueIn 8 ds : Int)
  | '0' :: 'b' :: s =>
    (digits? (fun c => c = '0' || c = '1') s).map fun ds => (valueIn 2 ds : Int)
  | s => decimal? s

def integer? (s : Text) : Option Int := (unbounded? s).filter inRange

/-- Whether `digits * 10 ^ power` exceeds all magnitudes. The least number above all magnitudes has
309 digits in front of the point. -/
def exceeds (digits : Nat) (power : Int) : Bool :=
  let size : Int := (Nat.toDigits 10 digits).length + power
  if digits = 0 || size < 309 then false
  else if 309 < size then true
  else (Magnitude.round (digits * Nat.pow 10 power.toNat) (Nat.pow 10 (-power).toNat)).isNone

/-- The exponent of a decimal. -/
def exponent? (s : Text) : Option Int := do
  let (negative, s) := splitSign s
  let n := valueIn 10 (← digits? Char.isDigit s)
  return if negative then -(n : Int) else n

def isExponentMark (c : Char) : Bool := c = 'e' || c = 'E'

def isReal (s : Text) : Bool :=
  let (_, s) := splitSign s
  s = "inf".toList || s = "nan".toList ||
    let front := s.takeWhile fun c => !isExponentMark c
    let exponent := (s.dropWhile fun c => !isExponentMark c).drop 1
    let whole := front.takeWhile (· ≠ '.')
    let fraction := (front.dropWhile (· ≠ '.')).drop 1
    let hasExponent := front.length < s.length
    let hasFraction := whole.length < front.length
    (hasExponent || hasFraction) &&
      match whole? whole, if hasFraction then digits? Char.isDigit fraction else some [],
        if hasExponent then exponent? exponent else some 0 with
      | some whole, some fraction, some power =>
        !exceeds (valueIn 10 (whole ++ fraction)) (power - fraction.length)
      | _, _, _ => false

end NoiseGate.Toml

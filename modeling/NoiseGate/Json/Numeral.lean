import NoiseGate.Decimal.Binary64
import NoiseGate.Text.Digits

/-!
# JSON numbers

A numeral is the text of a number, taken apart. Its value is an integer if it is written as one and
fits a machine word with its sign; all other values are binary64. The significand of these is kept
in a machine word: digits that no longer fit are counted and not read.
-/

namespace NoiseGate.Json

structure Numeral where
  negative : Bool
  whole : Bytes
  /-- The digits after the point. There are none without a point. -/
  fraction : Bytes
  /-- Whether the exponent is negative, and its digits. -/
  exponent : Option (Bool × Bytes)
  deriving DecidableEq

inductive Number
  | integer (n : Int)
  | real (negative : Bool) (size : Magnitude)
  deriving DecidableEq

namespace Numeral

def readExponent (s : Bytes) : Option (Option (Bool × Bytes) × Bytes) :=
  match s with
  | e :: rest =>
    if e = 101 ∨ e = 69 then
      let (negative, rest) := match rest with
        | 45 :: rest => (true, rest)
        | 43 :: rest => (false, rest)
        | _ => (false, rest)
      let digits := rest.takeWhile isDigit
      if digits.isEmpty then none else some (some (negative, digits), rest.drop digits.length)
    else some (none, s)
  | [] => some (none, s)

def readFraction (s : Bytes) : Option (Bytes × Bytes) :=
  match s with
  | 46 :: rest =>
    let digits := rest.takeWhile isDigit
    if digits.isEmpty then none else some (digits, rest.drop digits.length)
  | _ => some ([], s)

/-- Reads the numeral at the front. A leading zero stands alone. -/
def read (s : Bytes) : Option (Numeral × Bytes) := do
  let (negative, s) := match s with
    | 45 :: rest => (true, rest)
    | _ => (false, s)
  let whole := s.takeWhile isDigit
  if whole.isEmpty || (whole.head? = some 48 && whole.length ≠ 1) then none
  let (fraction, s) ← readFraction (s.drop whole.length)
  let (exponent, s) ← readExponent s
  return (⟨negative, whole, fraction, exponent⟩, s)

/-- Appends digits to a significand as long as it fits a word, and counts the digits appended. -/
def gather (n : Nat) (used : Nat) : Bytes → Nat × Nat
  | [] => (n, used)
  | d :: rest =>
    if 10 * n + digitValue d ≤ wordMax then gather (10 * n + digitValue d) (used + 1) rest
    else (n, used)

/-- The greatest exponent that is counted. -/
def exponentMax : Nat := UInt32.size / 2 - 1

/-- The value of a numeral. A number above all magnitudes has none. -/
def value? (t : Numeral) : Option Number := do
  let (n, used) := gather 0 0 t.whole
  let dropped := t.whole.length - used
  if t.fraction.isEmpty && t.exponent.isNone && dropped = 0 then
    if !t.negative then return .integer n
    else if 0 < n && n ≤ UInt64.size / 2 then return .integer (-n)
  let (n, used) := gather n 0 t.fraction
  let power : Int := dropped - used
  let size ← Magnitude.round n 1
  match t.exponent with
  | none => return .real t.negative (← size.scale power)
  | some (negative, digits) =>
    let e := digitsValue digits
    if exponentMax < e then
      if n = 0 || negative then return .real t.negative Magnitude.zero else none
    else return .real t.negative (← size.scale (if negative then power - e else power + e))

end Numeral

end NoiseGate.Json

import NoiseGate.Bytes

/-!
# Decimal digits

A run of ASCII digits has a value, whatever its length and its leading zeros. `decimal` writes a
number with the fewest digits.
-/

namespace NoiseGate

def isDigit (b : UInt8) : Bool := 48 ≤ b && b ≤ 57

def digitValue (b : UInt8) : Nat := b.toNat - 48

/-- The value of a run of digits, most significant digit first. -/
def digitsValue (digits : Bytes) : Nat := digits.foldl (fun n d => 10 * n + digitValue d) 0

def digitByte (n : Nat) : UInt8 := (48 + n % 10).toUInt8

def decimal (n : Nat) : Bytes :=
  if n < 10 then [digitByte n] else decimal (n / 10) ++ [digitByte n]
termination_by n
decreasing_by omega

end NoiseGate

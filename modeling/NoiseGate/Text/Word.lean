import NoiseGate.Bytes

/-!
# Words

The text of a length is a run of digits, with or without one plus sign in front, whose value fits
a machine word.
-/

namespace NoiseGate

inductive WordFault
  | empty
  | invalidDigit
  | tooLarge
  deriving DecidableEq

def WordFault.message : WordFault → String
  | empty => "cannot parse integer from empty string"
  | invalidDigit => "invalid digit found in string"
  | tooLarge => "number too large to fit in target type"

/-- Reads the rest of a run of digits after the value `n`. The first fault in the text counts. -/
def readDigits (n : Nat) : List Char → Except WordFault Nat
  | [] => .ok n
  | c :: rest =>
    if c.isDigit then
      if 10 * n + (c.toNat - 48) ≤ wordMax then readDigits (10 * n + (c.toNat - 48)) rest
      else .error .tooLarge
    else .error .invalidDigit

def readWord : List Char → Except WordFault Nat
  | [] => .error .empty
  | ['+'] => .error .invalidDigit
  | '+' :: rest => readDigits 0 rest
  | text => readDigits 0 text

end NoiseGate

import NoiseGate.Bytes

/-!
# Patterns

In a pattern a star stands for any text and a question mark for any character.
-/

namespace NoiseGate.Shell

def fits : Text → Text → Bool
  | [], text => text.isEmpty
  | '*' :: pattern, [] => fits pattern []
  | '*' :: pattern, c :: text => fits pattern (c :: text) || fits ('*' :: pattern) text
  | '?' :: pattern, _ :: text => fits pattern text
  | c :: pattern, d :: text => c = d && fits pattern text
  | _ :: _, [] => false
termination_by pattern text => pattern.length + text.length

/-- The text without the shortest or the longest beginning that fits a pattern. -/
def dropFront (longest : Bool) (pattern text : Text) : Text :=
  let cuts := (List.range (text.length + 1)).filter fun n => fits pattern (text.take n)
  match if longest then cuts.getLast? else cuts.head? with
  | some n => text.drop n
  | none => text

/-- The text without the shortest or the longest end that fits a pattern. -/
def dropBack (longest : Bool) (pattern text : Text) : Text :=
  let cuts := (List.range (text.length + 1)).filter fun n => fits pattern (text.drop n)
  match if longest then cuts.head? else cuts.getLast? with
  | some n => text.take n
  | none => text

end NoiseGate.Shell

import NoiseGate.Settings.Environment

/-!
# References to variables

A reference is a name between `${` and `}`. References are replaced by values in one pass from left
to right, so a reference inside a value stays as it is.
-/

namespace NoiseGate

/-- Replaces references by values. From a reference that is not closed on, nothing is replaced. -/
def expand (value : Text → Text) : Text → Text
  | [] => []
  | [c] => [c]
  | c :: d :: rest =>
    if c = '$' ∧ d = '\x7b' then
      if '\x7d' ∈ rest then
        value (rest.takeWhile (· ≠ '\x7d')) ++ expand value ((rest.dropWhile (· ≠ '\x7d')).drop 1)
      else c :: d :: rest
    else c :: expand value (d :: rest)
termination_by text => text.length
decreasing_by
  · have := (List.dropWhile_sublist (p := (· ≠ '\x7d')) (l := rest)).length_le
    simp only [List.length_drop, List.length_cons]
    omega
  · simp

/-- The names of the references in a text, in order. -/
def references : Text → List Text
  | [] => []
  | [_] => []
  | c :: d :: rest =>
    if c = '$' ∧ d = '\x7b' then
      if '\x7d' ∈ rest then
        rest.takeWhile (· ≠ '\x7d') :: references ((rest.dropWhile (· ≠ '\x7d')).drop 1)
      else []
    else references (d :: rest)
termination_by text => text.length
decreasing_by
  · have := (List.dropWhile_sublist (p := (· ≠ '\x7d')) (l := rest)).length_le
    simp only [List.length_drop, List.length_cons]
    omega
  · simp

namespace Environment

/-- The value that replaces a reference. An empty name has an empty value, and so has a name that
is not in the environment. -/
def valueOf (e : Environment) : Text → Text
  | [] => []
  | name => (e.get? name).getD []

def expand (e : Environment) (text : Text) : Text := NoiseGate.expand e.valueOf text

end Environment

end NoiseGate

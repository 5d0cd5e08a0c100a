import NoiseGate.Bytes

/-!
# Fields of records

Records are written in more than one format. A format says how its nodes are read as the values
that fields may have; the rest is common to all formats.
-/

namespace NoiseGate

/-- How the nodes of a format are read. -/
structure NodeReader (α : Type) where
  bool? : α → Option Bool
  text? : α → Option Text
  /-- An integer from zero to a bound. -/
  count? : Nat → α → Option Nat

/-- The value of a field, or the default if the field is not given. -/
def orDefault {α β : Type} (default : β) (read : α → Option β) : Option α → Option β
  | none => some default
  | some node => read node

/-- The value of a field that need not be given. -/
def optional {α β : Type} (read : α → Option β) : Option α → Option (Option β)
  | none => some none
  | some node => (read node).map some

end NoiseGate

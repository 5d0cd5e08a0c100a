import NoiseGate.Bytes

/-!
# Paths

A path is a text whose components are separated by slashes. Empty components, and components `.`
other than the first, do not count. What counts is kept as it is written.
-/

namespace NoiseGate

abbrev Path := Text

namespace Path

/-- The path to `p` from the directory `base`. A path from the root stands for itself. -/
def join (base p : Path) : Path :=
  if p.head? = some '/' then p
  else if base.isEmpty || base.getLast? = some '/' then base ++ p
  else base ++ '/' :: p

/-- The components of a path, with those that do not count. -/
def components : Path → List Text
  | [] => [[]]
  | c :: rest =>
    match components rest with
    | [] => [[c]]
    | name :: names => if c = '/' then [] :: name :: names else (c :: name) :: names

/-- A path is split into a head and a body. The head is a leading `/` or a leading `.`. -/
def splitHead : Path → Path × Path
  | '/' :: body => (['/'], body)
  | ['.'] => (['.'], [])
  | '.' :: '/' :: body => (['.'], '/' :: body)
  | body => ([], body)

/-- Drops components that do not count from the end of a body. The body is given in reverse. -/
def dropIdle : Text → Text
  | '/' :: rest => dropIdle rest
  | '.' :: '/' :: rest => dropIdle rest
  | ['.'] => []
  | rest => rest

/-- The path without its last component. The root and the empty path have no parent. -/
def parent? (p : Path) : Option Path :=
  let (head, body) := splitHead p
  let body := dropIdle body.reverse
  if body.isEmpty then
    if head = ['.'] then some [] else none
  else some (head ++ (dropIdle ((body.dropWhile (· ≠ '/')).drop 1)).reverse)

end Path

end NoiseGate

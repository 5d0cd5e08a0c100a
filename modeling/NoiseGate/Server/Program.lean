import NoiseGate.Files.Tree
import NoiseGate.Stream.Arrival

/-!
# Programs

A program reads its input, writes to an output and an error stream, and may change files. Programs
that serve wait for the end of their input before they end, so what they do is a function of all of
it.
-/

namespace NoiseGate

inductive Channel
  | output
  | errors
  deriving DecidableEq

/-- What has come of a program. -/
structure Outcome where
  /-- What was written without a pause, in order. -/
  writes : List (Channel × Bytes)
  files : FileTree
  /-- The exit code, unless the program was killed. -/
  status : Option Nat

abbrev Program := FileTree → Bytes → Outcome

namespace Outcome

/-- What the reads of the output give, before its end. -/
def arrivals (o : Outcome) : List Arrival :=
  (o.writes.filter fun (channel, data) => channel = .output && !data.isEmpty).map
    fun (_, data) => .bytes data

end Outcome

/-- A server that writes a text, copies its input to its output or leaves it unread, writes another
text, and ends. -/
structure Script where
  prelude : Bytes
  echo : Bool
  postlude : Bytes
  status : Option Nat

namespace Script

def program (s : Script) : Program := fun files input =>
  ⟨[(.output, s.prelude), (.output, if s.echo then input else []), (.output, s.postlude)], files,
    s.status⟩

end Script

end NoiseGate

import NoiseGate.Bytes

/-!
# Segments

A sanitized stream is a sequence of segments: pieces of messages, the last piece of a message
marked complete, and runs of noise between messages. The assembler joins the pieces of a message.
-/

namespace NoiseGate

inductive Segment
  | frame (bytes : Bytes) (complete : Bool)
  | noise (bytes : Bytes)
  deriving DecidableEq

namespace Segment

def bytes : Segment → Bytes
  | frame b _ => b
  | noise b => b

/-- A run of noise, unless it is empty. -/
def noiseRun : Bytes → List Segment
  | [] => []
  | b :: rest => [noise (b :: rest)]

end Segment

/-- Holds the pieces of the message in flight. -/
structure Assembler where
  held : Bytes
  deriving DecidableEq

namespace Assembler

def empty : Assembler := ⟨[]⟩

/-- Takes one segment and gives the message that it completes. -/
def push (a : Assembler) : Segment → Option Bytes × Assembler
  | .noise _ => (none, a)
  | .frame b false => (none, ⟨a.held ++ b⟩)
  | .frame b true => (some (a.held ++ b), empty)

/-- Takes segments in order and gives the messages that they complete. -/
def pushAll (a : Assembler) : List Segment → List Bytes × Assembler
  | [] => ([], a)
  | s :: rest =>
    let (message, a) := a.push s
    let (messages, a) := a.pushAll rest
    (message.toList ++ messages, a)

end Assembler

end NoiseGate

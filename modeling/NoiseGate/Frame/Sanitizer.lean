import NoiseGate.Frame.Header
import NoiseGate.Frame.Segment

/-!
# The sanitizer

The sanitizer splits a noisy stream into messages and noise, one chunk at a time. While it scans,
it keeps only the bytes that may still begin a header. Once it has seen a header it waits for the
payload, and passes on every byte of it as it arrives.
-/

namespace NoiseGate

inductive Sanitizer
  | scanning (pending : Bytes)
  | waiting (owed : Nat) (owed_pos : 0 < owed)
  deriving DecidableEq

/-- What is unfinished when a stream ends: bytes that formed no header, or a payload cut short. -/
structure Leftover where
  pending : Nat
  missing : Nat
  deriving DecidableEq

def Leftover.isClean (l : Leftover) : Bool := l.pending == 0 && l.missing == 0

namespace Sanitizer

def start : Sanitizer := scanning []

/-- The payload bytes that the message in flight still lacks. -/
def owed : Sanitizer → Nat
  | scanning _ => 0
  | waiting n _ => n

def pending : Sanitizer → Bytes
  | scanning p => p
  | waiting _ _ => []

def leftover (s : Sanitizer) : Leftover := ⟨s.pending.length, s.owed⟩

/-- Takes every message out of a buffer, as far as the buffer goes. -/
def scan (buffer : Bytes) : List Segment × Sanitizer :=
  match Header.locate buffer with
  | none =>
    let dead := Header.deadLength buffer
    (Segment.noiseRun (buffer.take dead), scanning (buffer.drop dead))
  | some header =>
    let noise := Segment.noiseRun (buffer.take header.start)
    let message := buffer.drop header.start
    if short : message.length < header.frameSize then
      (noise ++ [.frame message false],
        waiting (header.frameSize - message.length) (Nat.sub_pos_of_lt short))
    else
      let (segments, state) := scan (message.drop header.frameSize)
      (noise ++ .frame (message.take header.frameSize) true :: segments, state)
termination_by buffer.length
decreasing_by
  have := header.frameSize_pos
  simp only [message, List.length_drop] at short ⊢
  omega

/-- Takes the next chunk of the stream. An empty chunk changes nothing. -/
def feed : Sanitizer → Bytes → List Segment × Sanitizer
  | s, [] => ([], s)
  | scanning pending, b :: chunk => scan (pending ++ b :: chunk)
  | waiting owed _, b :: chunk =>
    if short : (b :: chunk).length < owed then
      ([.frame (b :: chunk) false],
        waiting (owed - (b :: chunk).length) (Nat.sub_pos_of_lt short))
    else
      let (segments, state) := scan ((b :: chunk).drop owed)
      (.frame ((b :: chunk).take owed) true :: segments, state)

/-- Takes chunks in order and gives all their segments. -/
def feedAll (s : Sanitizer) : List Bytes → List Segment × Sanitizer
  | [] => ([], s)
  | chunk :: rest =>
    let (segments, s) := s.feed chunk
    let (more, s) := s.feedAll rest
    (segments ++ more, s)

end Sanitizer

end NoiseGate

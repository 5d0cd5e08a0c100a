import NoiseGate.Frame.Candidates
import NoiseGate.Frame.Sanitizer

/-!
# Guarded runs

The search for headers and the sanitizer on a machine. It counts in words and takes bytes out of a
buffer by their places: a number that is no word and a place outside of the buffer stop it with a
trap, and so does a loop that gets no nearer to its end. A header and a state are bare numbers here.
That a header stops behind its start and that a state does not wait for nothing is not known of them.
-/

namespace NoiseGate

/-- Why a machine stops in the middle of a run. -/
inductive Trap
  | overflow
  | underflow
  | outOfBounds
  | endless
  deriving DecidableEq

abbrev Guarded (α : Type) := Except Trap α

/-- One round of a loop: it goes on from another state, or it is done. -/
inductive Round (σ α : Type)
  | again (state : σ)
  | done (result : α)

namespace Guarded

variable {σ α : Type}

/-- A number that has to fit a word. -/
def counted (n : Nat) : Guarded Nat := if n ≤ wordMax then pure n else throw .overflow

def add (m n : Nat) : Guarded Nat := counted (m + n)

def sub (m n : Nat) : Guarded Nat := if n ≤ m then pure (m - n) else throw .underflow

def size (buffer : Bytes) : Guarded Nat := counted buffer.length

/-- Puts two buffers into one, which has to be small enough to be counted. -/
def join (front back : Bytes) : Guarded Bytes := do
  let _ ← size (front ++ back)
  return front ++ back

/-- Cuts a buffer in two. -/
def cut (buffer : Bytes) (place : Nat) : Guarded (Bytes × Bytes) :=
  if place ≤ buffer.length then pure (buffer.take place, buffer.drop place) else throw .outOfBounds

/-- The bytes from one place to another. -/
def slice (buffer : Bytes) (start stop : Nat) : Guarded Bytes :=
  if start ≤ stop ∧ stop ≤ buffer.length then pure ((buffer.take stop).drop start)
  else throw .outOfBounds

/-- A difference, unless it is negative. -/
def minus? (m n : Nat) : Option Nat := if n ≤ m then some (m - n) else none

/-- A number, unless it is zero. -/
def nonzero? (n : Nat) : Option Nat := if n = 0 then none else some n

/-- One round after the other, as long as they go on. Each that goes on has to lower a measure by a
stride, since otherwise the loop might go on forever. -/
def loop (measure : σ → Nat) (stride : Nat) (hs : 0 < stride) (round : σ → Guarded (Round σ α))
    (state : σ) : Guarded α := do
  match ← round state with
  | .done result => return result
  | .again next =>
    if _ : measure next + stride ≤ measure state then loop measure stride hs round next
    else throw .endless
termination_by measure state
decreasing_by omega

/-- The first place of a word from some place on. There is none from behind the buffer. -/
def find (word buffer : Bytes) (start : Nat) : Guarded (Option Nat) :=
  if start ≤ buffer.length then
    match Header.place? word (buffer.drop start) with
    | none => pure none
    | some skipped => do return some (← add start skipped)
  else pure none

/-- The value of digits with more digits behind them, unless it cannot be counted. -/
def readValue (n : Nat) : Bytes → Guarded (Option Nat)
  | [] => pure (some n)
  | d :: rest =>
    match Header.counted? (10 * n) with
    | none => pure none
    | some tens => do
      match Header.counted? (tens + (← sub d.toNat 48)) with
      | none => pure none
      | some n => readValue n rest

/-- The length that some bytes give, if they are digits and it can be counted. -/
def readLength (bytes : Bytes) : Guarded (Option Nat) :=
  if bytes.isEmpty || !bytes.all isDigit then pure none else readValue 0 bytes

/-- Where a header starts and stops, and the length that it gives. -/
structure Found where
  start : Nat
  stop : Nat
  payload : Nat
  deriving DecidableEq

/-- Header and payload together. -/
def Found.frameSize (h : Found) : Guarded Nat := do add (← sub h.stop h.start) h.payload

/-- One round of the search for a token that passes a test. A test gets the place of the token and
that of the bytes behind it, and if it fails then the search goes on from there. -/
def tokenRound (test : Nat → Nat → Guarded (Option α)) (buffer : Bytes) (start : Nat) :
    Guarded (Round Nat (Option α)) := do
  match ← find Header.token buffer start with
  | none => return .done none
  | some place =>
    let behind ← add place Header.token.length
    match ← test place behind with
    | some result => return .done (some result)
    | none => return .again behind

/-- What the first token gives that passes a test. The search has to get on by a token each round. -/
def search (test : Nat → Nat → Guarded (Option α)) (buffer : Bytes) : Guarded (Option α) :=
  loop (buffer.length - ·) Header.token.length (by decide) (tokenRound test buffer) 0

/-- The header of a token, if what stands behind it completes one. -/
def candidate (buffer : Bytes) (place behind : Nat) : Guarded (Option Found) := do
  match ← find Header.separator buffer behind with
  | none => return none
  | some separator =>
    match ← readLength (← slice buffer behind separator) with
    | none => return none
    | some payload =>
      let stop ← add separator Header.separator.length
      match Header.counted? ((← sub stop place) + payload) with
      | none => return none
      | some _ => return some ⟨place, stop, payload⟩

/-- The first header of a buffer. -/
def locate (buffer : Bytes) : Guarded (Option Found) := search (candidate buffer) buffer

/-- Whether what stands behind a token may go on to complete a header. -/
def isLive (tail : Bytes) : Guarded Bool := do
  let (_, part) ← cut tail (tail.takeWhile isDigit).length
  return part.length < Header.separator.length && part.isPrefixOf Header.separator

/-- The place of a token, if its header may still be completed. -/
def live (buffer : Bytes) (place behind : Nat) : Guarded (Option Nat) := do
  let (_, tail) ← cut buffer behind
  return if ← isLive tail then some place else none

/-- The length of the longest part of a token, of no more than so many bytes, at the end of a
buffer. -/
def tokenPart (buffer : Bytes) : Nat → Guarded Nat
  | 0 => pure 0
  | n + 1 => do
    let (part, _) ← cut Header.token (n + 1)
    if part.isSuffixOf buffer then return n + 1 else tokenPart buffer n

/-- The length of what precedes the first stub of a buffer without a header. -/
def deadLength (buffer : Bytes) : Guarded Nat := do
  match ← search (live buffer) buffer with
  | some place => return place
  | none => sub (← size buffer) (← tokenPart buffer (Header.token.length - 1))

/-- What a sanitizer does, and the bytes or the number that it needs to go on. -/
inductive Phase
  | scanning (pending : Bytes)
  | waiting (owed : Nat)
  deriving DecidableEq

/-- One round of a scan: sets noise aside and takes one message out, as far as the buffer goes. -/
def scanRound : List Segment × Bytes → Guarded (Round (List Segment × Bytes) (List Segment × Phase))
  | (given, buffer) => do
    match ← locate buffer with
    | none =>
      let (noise, pending) ← cut buffer (← deadLength buffer)
      return .done (given ++ Segment.noiseRun noise, .scanning pending)
    | some header =>
      let (noise, message) ← cut buffer header.start
      let needed ← header.frameSize
      let given := given ++ Segment.noiseRun noise
      -- a difference below zero counts as zero: then the message is all there
      match nonzero? (needed - (← size message)) with
      | some owed => return .done (given ++ [.frame message false], .waiting owed)
      | none =>
        let (whole, rest) ← cut message needed
        return .again (given ++ [.frame whole true], rest)

/-- Takes every message out of a buffer, behind the segments that were given before. The buffer has to
get shorter by a header each round. -/
def scan (given : List Segment) (buffer : Bytes) : Guarded (List Segment × Phase) :=
  loop (·.2.length) (Header.sizeOf 1) (Header.sizeOf_pos 1) scanRound (given, buffer)

/-- Takes the next chunk of the stream. An empty chunk changes nothing. -/
def feed (phase : Phase) (chunk : Bytes) : Guarded (List Segment × Phase) :=
  if chunk.isEmpty then pure ([], phase)
  else match phase with
  | .scanning pending => do scan [] (← join pending chunk)
  | .waiting owed => do
    match (minus? owed (← size chunk)).bind nonzero? with
    | some left => return ([.frame chunk false], .waiting left)
    | none =>
      let (last, rest) ← cut chunk owed
      scan [.frame last true] rest

/-- Takes chunks in order and gives all their segments. -/
def feedAll (phase : Phase) : List Bytes → Guarded (List Segment × Phase)
  | [] => pure ([], phase)
  | chunk :: rest => do
    let (segments, phase) ← feed phase chunk
    let (more, phase) ← feedAll phase rest
    return (segments ++ more, phase)

end Guarded

/-- The numbers of a header. -/
def Header.found (h : Header) : Guarded.Found := ⟨h.start, h.stop, h.payload⟩

def Sanitizer.phase : Sanitizer → Guarded.Phase
  | scanning pending => .scanning pending
  | waiting owed _ => .waiting owed

end NoiseGate

import NoiseGate.Frame.Sanitizer
import NoiseGate.Log.Event
import NoiseGate.Stream.Outlet

/-!
# The relay

The relay passes the messages of a noisy stream to an outlet as they arrive, piece by piece, and
keeps the noise apart. It flushes once after every read that gave message bytes. A fault on either
side ends it. The end of the stream, wherever it falls, does not count as a fault.
-/

namespace NoiseGate

structure Stats where
  messages : Nat
  messageBytes : Nat
  noiseBytes : Nat
  leftover : Leftover
  deriving DecidableEq

structure Relay where
  sanitizer : Sanitizer
  outlet : Outlet
  /-- The runs of noise, in order. -/
  noise : List Bytes
  messages : Nat
  messageBytes : Nat
  noiseBytes : Nat

/-- What is worth reporting about the end of a noisy stream. -/
def Leftover.events (l : Leftover) : List Event :=
  (if l.missing = 0 then [] else [.messageCut l.missing]) ++
    (if l.pending = 0 then [] else [.tailDropped l.pending])

namespace Relay

def start (outlet : Outlet) : Relay := ⟨.start, outlet, [], 0, 0, 0⟩

def pass (r : Relay) : List Segment → Relay × Option Fault
  | [] => (r, none)
  | .noise run :: rest =>
    pass { r with noise := r.noise ++ [run], noiseBytes := r.noiseBytes + run.length } rest
  | .frame data complete :: rest =>
    match r.outlet.write data with
    | (outlet, some cause) => ({ r with outlet := outlet }, some cause)
    | (outlet, none) =>
      pass { r with
        outlet := outlet
        messages := r.messages + if complete then 1 else 0
        messageBytes := r.messageBytes + data.length } rest

def hasFrame (segments : List Segment) : Bool :=
  segments.any fun
    | .frame _ _ => true
    | .noise _ => false

/-- Handles the bytes of one read. -/
def take (r : Relay) (chunk : Bytes) : Relay × Option Fault :=
  let (segments, sanitizer) := r.sanitizer.feed chunk
  match { r with sanitizer := sanitizer }.pass segments with
  | (r, some cause) => (r, some cause)
  | (r, none) =>
    if hasFrame segments then
      let (outlet, failure) := r.outlet.flush
      ({ r with outlet := outlet }, failure)
    else (r, none)

def stats (r : Relay) : Stats :=
  ⟨r.messages, r.messageBytes, r.noiseBytes, r.sanitizer.leftover⟩

/-- Handles reads up to the end of the stream or the first fault. -/
def run (r : Relay) : List Arrival → Except Fault Stats × Relay
  | [] => (.ok r.stats, r)
  | .bytes [] :: _ => (.ok r.stats, r)
  | .fault cause :: _ => (.error cause, r)
  | .bytes (b :: chunk) :: rest =>
    match r.take (b :: chunk) with
    | (r, some cause) => (.error cause, r)
    | (r, none) => r.run rest

/-- The events that the outcome of a run gives rise to. -/
def events : Except Fault Stats → List Event
  | .ok stats => stats.leftover.events
  | .error _ => []

end Relay

/-- Relays a stream, taking it in reads of limited size. -/
def relay (stream : List Arrival) (outlet : Outlet) : Except Fault Stats × Relay :=
  (Relay.start outlet).run (stream.flatMap Arrival.reads)

end NoiseGate

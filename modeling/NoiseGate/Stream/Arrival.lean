import NoiseGate.Bytes

/-!
# Arrivals

A stream is known by what its reads give: some bytes, none at its end, or a fault. A reader with a
buffer of fixed size sees a large arrival in pieces. A reader of single bytes sees signals.
-/

namespace NoiseGate

/-- The ways in which a read or a write fails. -/
inductive Fault
  | brokenPipe
  | connectionReset
  | timedOut
  deriving DecidableEq

def Fault.message : Fault → String
  | brokenPipe => "broken pipe"
  | connectionReset => "connection reset"
  | timedOut => "timed out"

/-- What one read gives. No bytes mean the end of the stream. -/
inductive Arrival
  | bytes (data : Bytes)
  | fault (cause : Fault)
  deriving DecidableEq

/-- One byte of a stream, or a point where a read finds the end or fails. -/
inductive Signal
  | byte (b : UInt8)
  | finish
  | fault (cause : Fault)
  deriving DecidableEq

/-- The most bytes that one read takes. -/
def readSize : Nat := 8192

/-- Cuts data into the pieces that fit one read each. -/
def readPieces (data : Bytes) : List Bytes :=
  if data.length ≤ readSize then [data]
  else data.take readSize :: readPieces (data.drop readSize)
termination_by data.length
decreasing_by
  simp only [readSize, List.length_drop] at *
  omega

namespace Arrival

/-- The reads that it takes to consume one arrival. -/
def reads : Arrival → List Arrival
  | bytes data => (readPieces data).map bytes
  | fault cause => [fault cause]

def signals : Arrival → List Signal
  | bytes [] => [.finish]
  | bytes data => data.map .byte
  | fault cause => [.fault cause]

end Arrival

end NoiseGate

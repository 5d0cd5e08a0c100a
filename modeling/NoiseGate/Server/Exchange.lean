import NoiseGate.Messages
import NoiseGate.Server.Program
import NoiseGate.Server.Writer

/-!
# Exchanges

An exchange sends bodies to a server, closes the queue, and takes the server's messages to the end
of its output.
-/

namespace NoiseGate

structure Exchange where
  /-- Whether a notice to exit was accepted. -/
  exitQueued : Bool
  messages : List Bytes
  noise : Bytes
  /-- Whether a body is accepted after the queue was closed. -/
  acceptsMore : Bool
  status : Option Nat
  deriving DecidableEq

namespace Exchange

def run (server : Program) (files : FileTree) (bodies : List Bytes) (exit : Bool) : Exchange :=
  let (writer, queued) := ((Writer.start (.new none false)).sendAll bodies).finish exit
  let outcome := server files writer.outlet.written
  let (items, m) := (Messages.start outcome.arrivals).items
  let message? : Except Fault Bytes × Nat → Option Bytes
    | (.ok message, _) => some message
    | (.error _, _) => none
  ⟨queued, items.filterMap message?, m.noise.flatten, (writer.send []).2, outcome.status⟩

end Exchange

end NoiseGate

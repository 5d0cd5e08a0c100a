import NoiseGate.Frame.Writer
import NoiseGate.Rpc.Body

/-!
# Writing to a server

Bodies for a server wait in a queue of limited length. A writer takes them in order and writes
their frames. It stops at a command to shut down or at a frame that it cannot write, and from then
on nothing is accepted.
-/

namespace NoiseGate

inductive Command
  | send (body : Bytes)
  | shutdown
  deriving DecidableEq

structure Writer where
  /-- What was accepted and not yet taken. -/
  waiting : List Command
  running : Bool
  outlet : Outlet
  deriving DecidableEq

namespace Writer

/-- How many commands may wait. -/
def capacity : Nat := 64

def start (outlet : Outlet) : Writer := ⟨[], true, outlet⟩

def closedMessage : String := "server stdin closed"

/-- Whether a command would be accepted at once. -/
def hasRoom (w : Writer) : Bool := w.running && w.waiting.length < capacity

def accept (w : Writer) (c : Command) : Writer := { w with waiting := w.waiting ++ [c] }

/-- Takes one command. -/
def take (w : Writer) : Writer :=
  match w.running, w.waiting with
  | true, .send body :: rest =>
    match w.outlet.writeFrame body with
    | (outlet, none) => ⟨rest, true, outlet⟩
    | (outlet, some _) => ⟨rest, false, outlet⟩
  | true, .shutdown :: rest => { w with waiting := rest, running := false }
  | _, _ => w

/-- Takes all commands that wait. -/
def drain (w : Writer) : Writer := w.waiting.foldl (fun w _ => w.take) w

/-- Sends a body to a writer that keeps up. The result says whether it was accepted. -/
def send (w : Writer) (body : Bytes) : Writer × Bool :=
  if w.drain.hasRoom then (w.drain.accept (.send body), true) else (w.drain, false)

def sendAll (w : Writer) (bodies : List Bytes) : Writer :=
  bodies.foldl (fun w body => (w.send body).1) w

/-- Sends the notice to exit, if asked to, and closes the queue. The result says whether the notice
was accepted. -/
def finish (w : Writer) (exit : Bool) : Writer × Bool :=
  let (w, queued) := if exit then w.send Rpc.exitBody else (w, false)
  ((w.drain.accept .shutdown).drain, queued)

end Writer

end NoiseGate

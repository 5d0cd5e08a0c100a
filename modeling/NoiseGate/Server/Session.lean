import NoiseGate.Log.ServerLog
import NoiseGate.Relay
import NoiseGate.Server.Host
import NoiseGate.Server.Writer

/-!
# Sessions

A session joins an editor and a server. The bodies of the editor's frames go to the server up to a
notice to exit, the end of the editor's stream, or an error in it. Unless the editor sent the
notice, the session sends it. The server's output is relayed to the editor to its end.
-/

namespace NoiseGate

/-- What an editor's stream comes to. -/
structure Forwarded where
  /-- The bodies for the server. -/
  bodies : List Bytes
  sentExit : Bool
  failure : Option ReadError
  deriving DecidableEq

namespace Forwarded

def nothing : Forwarded := ⟨[], false, none⟩

/-- The body that is sent for a body of the editor. -/
def outgoing (options : Option Json.Value) (body : Bytes) : Bytes :=
  (options.bind (Rpc.inject? · body)).getD body

def isExit (body : Bytes) : Bool := Rpc.method? body = some "exit".toList

/-- Takes frames until one is a notice to exit or there are no more. -/
def ofSignals (options : Option Json.Value) (s : List Signal) : Forwarded :=
  match _ : readFrame s with
  | (.error e, _) => ⟨[], false, some e⟩
  | (.ok none, _) => nothing
  | (.ok (some body), rest) =>
    if isExit body then ⟨[outgoing options body], true, none⟩
    else
      let later := ofSignals options rest
      { later with bodies := outgoing options body :: later.bodies }
termination_by s.length
decreasing_by exact readFrame_length_lt ‹_›

def ofStream (options : Option Json.Value) (stream : List Arrival) : Forwarded :=
  ofSignals options (stream.flatMap Arrival.signals)

/-- The input that a server gets which reads all of it. -/
def input (f : Forwarded) : Bytes :=
  (((Writer.start (.new none false)).sendAll f.bodies).finish !f.sentExit).1.outlet.written

end Forwarded

/-- Why a session fails. Nothing on the editor's side is a reason. -/
inductive SessionError
  | spawn (e : SpawnError)
  | relay (cause : Fault)
  deriving DecidableEq

def SessionError.message : SessionError → Text
  | spawn e => e.message
  | relay cause => ("relaying server output: " ++ cause.message).toList

structure Session where
  forwarded : Forwarded
  outcome : Outcome
  relayed : Except Fault Stats
  relay : Relay

namespace Session

/-- Runs a session with a server. An editor that stays silent sends nothing, and does not close its
stream before the server has closed its own. -/
def run (server : Program) (files : FileTree) (options : Option Json.Value)
    (editor : Option (List Arrival)) (outlet : Outlet) : Session :=
  let forwarded := match editor with
    | none => .nothing
    | some stream => .ofStream options stream
  let input := match editor with
    | none => []
    | some _ => forwarded.input
  let outcome := server files input
  let (relayed, relay) := NoiseGate.relay outcome.arrivals outlet
  ⟨forwarded, outcome, relayed, relay⟩

/-- Launches a server and runs a session with it. -/
def launch (h : Host) (files : FileTree) (l : Launch) (options : Option Json.Value)
    (editor : Option (List Arrival)) (outlet : Outlet) : Except SessionError Session :=
  match h.spawn files l with
  | .error e => .error (.spawn e)
  | .ok (server, files) => .ok (run server files options editor outlet)

/-- How the relay ended, as the outcome of the session. -/
def result (s : Session) : Except SessionError Stats :=
  match s.relayed with
  | .ok stats => .ok stats
  | .error cause => .error (.relay cause)

def events (s : Session) : List Event :=
  s.forwarded.failure.toList.map .editorFailed ++ Relay.events s.relayed

/-- Cuts complete lines off the front. The bytes of the first line are gathered in reverse. -/
def cutLines (line : Bytes) : Bytes → List Bytes × Bytes
  | [] => ([], line.reverse)
  | b :: rest =>
    if b = 10 then
      let (lines, open_) := cutLines [] rest
      ((b :: line).reverse :: lines, open_)
    else cutLines (b :: line) rest

/-- What is kept of a server's writes: noise as the relay finds it, and the lines of the error
stream as they are completed. -/
def remarks (r : Relay) (line : Bytes) : List (Channel × Bytes) → List Remark
  | [] => if line.isEmpty then [] else [.serverError line]
  | (.errors, data) :: rest =>
    let (lines, line) := cutLines [] (line ++ data)
    lines.map .serverError ++ remarks r line rest
  | (.output, []) :: rest => remarks r line rest
  | (.output, b :: data) :: rest =>
    let (_, later) := r.run (Arrival.reads (.bytes (b :: data)))
    (later.noise.drop r.noise.length).map .noise ++ remarks later line rest

/-- All that is kept of the server. -/
def log (s : Session) (outlet : Outlet) : List Remark := remarks (.start outlet) [] s.outcome.writes

end Session

end NoiseGate

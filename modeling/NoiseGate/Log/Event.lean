import NoiseGate.Frame.Reader
import NoiseGate.Text.Noise

/-!
# Events

What the gate reports to its operator.
-/

namespace NoiseGate

inductive Level
  | debug
  | info
  | warn
  deriving DecidableEq

inductive Event
  /-- The server's output ended before the payload of a message was complete. -/
  | messageCut (missing : Nat)
  /-- The server's output ended in bytes that may have begun a header. -/
  | tailDropped (size : Nat)
  | noise (bytes : Bytes)
  | serverError (bytes : Bytes)
  | logFull
  | errorStreamFailed (cause : Fault)
  | editorFailed (error : ReadError)
  deriving DecidableEq

namespace Event

def level : Event → Level
  | messageCut _ => .warn
  | tailDropped _ => .debug
  | noise _ => .info
  | serverError _ => .info
  | logFull => .warn
  | errorStreamFailed _ => .debug
  | editorFailed _ => .warn

/-- The topic of events that carry the server's own words. -/
def topic : Event → Option String
  | noise _ => some "sieve::noise"
  | serverError _ => some "sieve::stderr"
  | _ => none

def message : Event → String
  | messageCut _ => "Server output ended inside a message"
  | tailDropped _ => "Dropping unterminated trailing output"
  | noise bytes => String.ofList (noiseText bytes)
  | serverError bytes => String.ofList (trimEnd (noiseText bytes))
  | logFull => "Failed to write server log: No space left on device (os error 28)"
  | errorStreamFailed cause => "Server stderr read error: " ++ cause.message
  | editorFailed error => "Editor stream failed: " ++ error.message

/-- The counts that come with an event. -/
def counts : Event → List (String × Nat)
  | messageCut missing => [("missing", missing)]
  | tailDropped size => [("bytes", size)]
  | noise bytes => [("bytes", bytes.length)]
  | _ => []

end Event

end NoiseGate

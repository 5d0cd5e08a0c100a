import NoiseGate.Frame.Header
import NoiseGate.Stream.Outlet

/-!
# Writing frames

A body is written behind a header that gives its length, and the outlet is flushed after it.
-/

namespace NoiseGate

/-- The step at which writing a frame fails. -/
inductive WriteError
  | header (cause : Fault)
  | body (cause : Fault)
  | flush (cause : Fault)
  deriving DecidableEq

def WriteError.message : WriteError → String
  | header cause => "writing frame header: " ++ cause.message
  | body cause => "writing frame body: " ++ cause.message
  | flush cause => "flushing frame: " ++ cause.message

def headerFor (body : Bytes) : Bytes := Header.token ++ decimal body.length ++ Header.separator

def frameOf (body : Bytes) : Bytes := headerFor body ++ body

namespace Outlet

def writeFrame (o : Outlet) (body : Bytes) : Outlet × Option WriteError :=
  match o.write (headerFor body) with
  | (o, some cause) => (o, some (.header cause))
  | (o, none) =>
    match o.write body with
    | (o, some cause) => (o, some (.body cause))
    | (o, none) =>
      match o.flush with
      | (o, some cause) => (o, some (.flush cause))
      | (o, none) => (o, none)

/-- Writes every body, also after one has failed. -/
def writeFrames (o : Outlet) : List Bytes → Outlet × List (Option WriteError)
  | [] => (o, [])
  | body :: rest =>
    let (o, result) := o.writeFrame body
    let (o, results) := o.writeFrames rest
    (o, result :: results)

end Outlet

end NoiseGate

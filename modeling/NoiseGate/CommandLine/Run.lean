import NoiseGate.CommandLine.Help
import NoiseGate.Server.Session
import NoiseGate.Settings.Load

/-!
# Running the gate

A run reads the arguments and the settings, opens the logs, and holds one session. A log that
cannot be opened does not stop it, and neither does a server that fails once it has been launched.
-/

namespace NoiseGate

inductive RunError
  | usage (e : UsageError)
  | settings (e : SettingsError)
  /-- The server could not be launched, or its output could not be relayed. -/
  | session (command : Text)
  deriving DecidableEq

namespace RunError

def message : RunError → Text
  | usage e => "error: ".toList ++ e.message
  | settings e => "Error: ".toList ++ e.message
  | session command => "Error: running ".toList ++ command

def exitCode : RunError → Nat
  | usage _ => 2
  | settings _ => 1
  | session _ => 1

end RunError

/-- What a run starts from. -/
structure Setup where
  environment : Environment
  files : FileTree
  host : Host

/-- What a run leaves. -/
structure Report where
  output : Bytes
  error : Option RunError
  files : FileTree

namespace Report

def exitCode (r : Report) : Nat := (r.error.map RunError.exitCode).getD 0

def failed (files : FileTree) (e : RunError) : Report := ⟨[], some e, files⟩

end Report

namespace Setup

/-- Opens a file for appending, if one is named and it can be opened. -/
def openLog (files : FileTree) : Option Path → FileTree × ServerLog
  | none => (files, .reportOnly)
  | some path =>
    match ServerLog.openFile files path with
    | (files, .ok log) => (files, log)
    | (files, .error _) => (files, .reportOnly)

/-- Holds a session with a launched server. -/
def serve (s : Setup) (log : ServerLog) (settings : Settings) (l : Launch) (input : Bytes) :
    Report :=
  let outlet : Outlet := .new none false
  match Session.launch s.host s.files l settings.initialization.toValue? (some [.bytes input])
    outlet with
  | .error _ => .failed s.files (.session l.command)
  | .ok session =>
    let (files, _) := log.keepAll { session.outcome.files with start := s.files.start }
      (session.log outlet)
    match session.result with
    | .error _ => ⟨session.relay.outlet.written, some (.session l.command), files⟩
    | .ok _ => ⟨session.relay.outlet.written, none, files⟩

def runWith (s : Setup) (a : Arguments) (input : Bytes) : Report :=
  match Settings.load s.files s.environment (a.value? .config) with
  | .error e => .failed s.files (.settings e)
  | .ok settings =>
    let (files, _) := openLog s.files (a.value? .logFile <|> settings.logFile)
    match settings.launch s.environment ⟨a.value? .server, a.serverArgs, a.value? .dir⟩ with
    | .error e => .failed files (.settings e)
    | .ok l =>
      let (files, log) := openLog files (a.value? .noiseFile <|> settings.noiseFile)
      { s with files := files }.serve log settings l input

/-- Runs the gate on the input that comes from the editor. -/
def run (s : Setup) (arguments : List Text) (input : Bytes) : Report :=
  match Arguments.parse s.environment arguments with
  | .error e => .failed s.files (.usage e)
  | .ok (.show f) => ⟨Utf8.encode (f.text s.environment), none, s.files⟩
  | .ok (.run a) => s.runWith a input

end Setup

end NoiseGate

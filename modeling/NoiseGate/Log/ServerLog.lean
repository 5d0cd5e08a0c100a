import NoiseGate.Files.Tree
import NoiseGate.Frame.Buffered
import NoiseGate.Log.Event

/-!
# The server log

What a server says outside the messages is reported and, if a file is open, appended to it. Noise
stands between two marks in the file, so that it can be told from the server's error stream. The
error stream is taken line by line.
-/

namespace NoiseGate

/-- What is kept of a server. -/
inductive Remark
  | noise (bytes : Bytes)
  | serverError (bytes : Bytes)
  deriving DecidableEq

inductive LogError
  | creating (path : Path)
  | opening (path : Path)
  deriving DecidableEq

def LogError.message : LogError → Text
  | creating path => "creating ".toList ++ path
  | opening path => "opening ".toList ++ path

def noiseBegin : Bytes := ascii "> STDOUT\n"

def noiseEnd : Bytes := ascii "< STDOUT\n"

namespace Remark

/-- The pieces that are appended to the file, one after the other. -/
def pieces : Remark → List Bytes
  | noise bytes => [noiseBegin, bytes, noiseEnd]
  | serverError bytes => [bytes]

def event : Remark → Event
  | noise bytes => .noise bytes
  | serverError bytes => .serverError bytes

end Remark

/-- Appends pieces until one is not taken. The result says whether all were. -/
def FileTree.appendAll (t : FileTree) (location : Location) : List Bytes → FileTree × Bool
  | [] => (t, true)
  | piece :: rest =>
    match t.append location piece with
    | (t, true) => t.appendAll location rest
    | (t, false) => (t, false)

/-- A log has a file or none. -/
structure ServerLog where
  file : Option Location
  deriving DecidableEq

namespace ServerLog

def reportOnly : ServerLog := ⟨none⟩

/-- Opens a file for appending, and makes it and the directories it lies in. Directories that were
made stay, even if the file cannot be opened. -/
def openFile (t : FileTree) (path : Path) : FileTree × Except LogError ServerLog :=
  let directory := (Path.parent? path).getD []
  match t.makeDirectory directory with
  | (t, false) => (t, .error (.creating directory))
  | (t, true) =>
    match t.create path with
    | some (t, location) => (t, .ok ⟨some location⟩)
    | none => (t, .error (.opening path))

/-- Keeps a remark and reports it. -/
def keep (log : ServerLog) (t : FileTree) (r : Remark) : FileTree × List Event :=
  match log.file with
  | none => (t, [r.event])
  | some location =>
    match t.appendAll location r.pieces with
    | (t, true) => (t, [r.event])
    | (t, false) => (t, [r.event, .logFull])

def keepAll (log : ServerLog) (t : FileTree) : List Remark → FileTree × List Event
  | [] => (t, [])
  | r :: rest =>
    let (t, events) := log.keep t r
    let (t, later) := log.keepAll t rest
    (t, events ++ later)

/-- Keeps an error stream line by line. The last line may lack its line feed. A fault loses the line
that it falls into, and ends the lines. -/
def forwardFrom (log : ServerLog) (t : FileTree) (b : Buffered) : FileTree × List Event :=
  match _ : b.readLine [] with
  | (.error cause, _) => (t, [.errorStreamFailed cause])
  | (.ok [], _) => (t, [])
  | (.ok (c :: line), b) =>
    let (t, events) := log.keep t (.serverError (c :: line))
    let (t, later) := log.forwardFrom t b
    (t, events ++ later)
termination_by b.signals.length
decreasing_by exact Buffered.signals_length_lt ‹_›

def forward (log : ServerLog) (t : FileTree) (stream : List Arrival) : FileTree × List Event :=
  log.forwardFrom t (.start stream)

end ServerLog

end NoiseGate

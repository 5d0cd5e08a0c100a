import NoiseGate.CommandLine.Run
import NoiseGate.Shell.Run

/-!
# The command line

Gathers what a run needs to know of the environment and the files, runs the gate on the standard
input, and writes what has come of it. The servers that it can launch are the shell and its tools.
-/

namespace NoiseGate.Main

/-- The environment, as far as the given names go. -/
def environment (names : List Text) : IO Environment := do
  let bindings ← names.filterMapM fun name => do
    return (← IO.getEnv (String.ofList name)).map fun value => (name, value.toList)
  return ⟨bindings, none⟩

def locationOf (t : FileTree) (p : Path) : Location :=
  p.components.foldl FileTree.enter (t.origin p)

def systemPath (location : Location) : String := String.ofList (Shell.State.directoryText location)

/-- Adds what is at a location to a tree, if anything is there that can be read. -/
def addEntry (t : FileTree) (location : Location) : IO FileTree :=
  try
    let path ← IO.FS.realPath (systemPath location)
    if ← path.isDir then return t.put location .directory
    else return t.put location (.file (← IO.FS.readBinFile path).toList)
  catch _ => return t

/-- Adds what a path passes through. -/
def addPath (t : FileTree) (p : Path) : IO FileTree := do
  let location := locationOf t p
  (List.range (location.length + 1)).foldlM (fun t n => addEntry t (location.take n)) t

/-- A tree with the paths that a run may touch, and the environment that it may look at. -/
def gather (arguments : Arguments) : IO Setup := do
  let here := (← IO.currentDir).toString.toList
  let bare : FileTree := ⟨[], here.splitOn '/' |>.filter (!·.isEmpty)⟩
  let names := ["HOME".toList, Arguments.configVariable]
  let e ← environment names
  let named := arguments.value? .config
  let t ← addPath bare here
  let t ← (named <|> Settings.defaultPath? e).toList.foldlM addPath t
  let settings := (Settings.load t e named).toOption.getD .empty
  let e ← environment (names ++ settings.references)
  let paths := [arguments.value? .logFile <|> settings.logFile,
    arguments.value? .noiseFile <|> settings.noiseFile,
    arguments.value? .dir <|> (settings.server.bind (·.dir)).map e.expand]
  let t ← (paths.filterMap id).foldlM addPath t
  return ⟨e, t, ⟨Shell.program? e, ["/bin".toList, "/usr/bin".toList]⟩⟩

/-- Writes what a run has changed. -/
def store (before after : FileTree) : IO Unit :=
  for (location, entry) in after.entries.reverse do
    if before.entry? location ≠ some entry then
      match entry with
      | .directory => IO.FS.createDirAll (systemPath location)
      | .file content => IO.FS.writeBinFile (systemPath location) ⟨content.toArray⟩
      | .device _ => pure ()

partial def readAll (input : IO.FS.Stream) (data : ByteArray) : IO ByteArray := do
  let more ← input.read 65536
  if more.isEmpty then return data else readAll input (data ++ more)

def reportOn (r : Report) : IO UInt32 := do
  (← IO.getStdout).write ⟨r.output.toArray⟩
  (← IO.getStdout).flush
  if let some e := r.error then
    (← IO.getStderr).putStrLn (String.ofList e.message)
  return r.exitCode.toUInt32

/-- Runs the gate with the words of a command line. -/
def run (words : List Text) : IO UInt32 := do
  let e ← environment ["HOME".toList, Arguments.configVariable]
  match Arguments.parse e words with
  | .ok (.run arguments) =>
    let setup ← gather arguments
    let input ← readAll (← IO.getStdin) .empty
    let report := setup.runWith arguments input.toList
    store setup.files report.files
    reportOn report
  | _ => reportOn ((Setup.mk e ⟨[], []⟩ ⟨fun _ => none, []⟩).run words [])

end NoiseGate.Main

def main (words : List String) : IO UInt32 := NoiseGate.Main.run (words.map String.toList)

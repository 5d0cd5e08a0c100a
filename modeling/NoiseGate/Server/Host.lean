import NoiseGate.Rpc.Options
import NoiseGate.Server.Program

/-!
# Launching servers

A command that holds a slash is the path of a program; any other is looked up by its name. The
directory to launch it in must be there.
-/

namespace NoiseGate

inductive SpawnError
  | notFound (command : Text)
  | failed (command : Text)
  deriving DecidableEq

def SpawnError.message : SpawnError → Text
  | notFound command => command ++ " not found in PATH".toList
  | failed command => "failed to spawn ".toList ++ command

/-- The programs of a host, by name, each with its arguments to be given. -/
structure Host where
  program? : Text → Option (List Text → Program)
  /-- The directories in which the programs lie. -/
  directories : List Path

namespace Host

/-- The program that a command stands for. -/
def find? (h : Host) (command : Text) : Option (List Text → Program) :=
  if '/' ∈ command then
    h.directories.findSome? fun directory =>
      if Path.parent? command = some directory then
        h.program? (command.drop (directory.length + 1))
      else none
  else h.program? command

/-- The launched server and the files as it sees them, from its own directory. -/
def spawn (h : Host) (files : FileTree) (l : Launch) : Except SpawnError (Program × FileTree) :=
  match h.find? l.command with
  | none => .error (.notFound l.command)
  | some program =>
    match l.dir with
    | none => .ok (program l.args, files)
    | some dir =>
      match files.locate dir with
      | none => .error (.failed l.command)
      | some location =>
        if files.isDirectory location then .ok (program l.args, { files with start := location })
        else .error (.failed l.command)

end Host

end NoiseGate

import NoiseGate.Rpc.Options
import NoiseGate.Settings.Expansion
import NoiseGate.Text.Blank
import NoiseGate.Toml.Document

/-!
# Settings

The settings are three sections of a document, none of which need be there: the server to launch,
the options it is initialized with, and the logs. What is given on the command line comes before
the section on the server.
-/

namespace NoiseGate

open Toml

structure ServerSection where
  path : Option Text
  args : List Text
  dir : Option Text

structure LogSection where
  filter : Option Text
  file : Option Text
  noiseFile : Option Text

structure Settings where
  server : Option ServerSection
  options : Option Options
  log : Option LogSection

/-- What the command line says about the server. -/
structure Overrides where
  path : Option Text
  args : List Text
  dir : Option Text

namespace ServerSection

def ofItem? (item : Item) : Option ServerSection := do
  match ← item.fields? true ["path", "args", "cwd"] with
  | [path, args, dir] =>
    return ⟨← optional Item.text? path, ← orDefault [] Item.texts? args, ← optional Item.text? dir⟩
  | _ => none

end ServerSection

namespace LogSection

def ofItem? (item : Item) : Option LogSection := do
  match ← item.fields? true ["filter", "file", "noise_file"] with
  | [filter, file, noiseFile] =>
    return ⟨← optional Item.text? filter, ← optional Item.text? file,
      ← optional Item.text? noiseFile⟩
  | _ => none

end LogSection

namespace Settings

def empty : Settings := ⟨none, none, none⟩

def ofOptions? (item : Item) : Option Options := do
  Options.ofFields? Item.reader (← item.fields? false Options.names)

/-- The settings in a document. -/
def parse? (text : Text) : Option Settings := do
  match ← (← Toml.parse? text).fields? true ["server", "initialization", "log"] with
  | [server, options, log] =>
    return ⟨← optional ServerSection.ofItem? server, ← optional ofOptions? options,
      ← optional LogSection.ofItem? log⟩
  | _ => none

def initialization (s : Settings) : Options := s.options.getD Options.default

def logFilter (s : Settings) : Option Text := s.log.bind (·.filter)

def logFile (s : Settings) : Option Text := s.log.bind (·.file)

def noiseFile (s : Settings) : Option Text := s.log.bind (·.noiseFile)

/-- The names of all variables that the settings refer to. -/
def references (s : Settings) : List Text :=
  match s.server with
  | none => []
  | some server => (server.path.toList ++ server.args ++ server.dir.toList).flatMap
      NoiseGate.references

/-- The server to launch. References in the section are expanded, and overrides are taken as they
are. Arguments on the command line replace all those in the section. There is no server if its
command is blank. -/
def launch? (s : Settings) (e : Environment) (o : Overrides) : Option Launch := do
  let command ← o.path <|> (s.server.bind (·.path)).map e.expand
  if (trim command).isEmpty then none
  else
    return {
      command
      args :=
        if o.args.isEmpty then
          match s.server with
          | none => []
          | some server => server.args.map e.expand
        else o.args
      dir := o.dir <|> (s.server.bind (·.dir)).map e.expand }

end Settings

end NoiseGate

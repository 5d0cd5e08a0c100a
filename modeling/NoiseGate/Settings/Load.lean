import NoiseGate.Files.Tree
import NoiseGate.Settings.Basic

/-!
# Loading settings

Settings are read from a named file, which must be there, or else from a file in the home
directory, if there is one.
-/

namespace NoiseGate

inductive SettingsError
  | unreadable (path : Path)
  | malformed (path : Path)
  | noServer
  deriving DecidableEq

namespace SettingsError

def message : SettingsError → Text
  | unreadable path => "failed to read config at ".toList ++ path
  | malformed path => "failed to parse config at ".toList ++ path
  | noServer => "no language server configured: set [server] path or pass --server".toList

/-- The file that an error is about. -/
def path? : SettingsError → Option Path
  | unreadable path => some path
  | malformed path => some path
  | noServer => none

end SettingsError

namespace Settings

/-- Where settings are looked for that are not named. -/
def defaultPath? (e : Environment) : Option Path :=
  e.home?.map fun home => Path.join (Path.join home ".sieve".toList) "config.toml".toList

def loadFrom (t : FileTree) (path : Path) : Except SettingsError Settings :=
  match (t.read? path).bind Utf8.decode? with
  | none => .error (.unreadable path)
  | some text =>
    match parse? text with
    | none => .error (.malformed path)
    | some settings => .ok settings

def load (t : FileTree) (e : Environment) (named : Option Path) : Except SettingsError Settings :=
  match named, defaultPath? e with
  | some path, _ => loadFrom t path
  | none, some path => if t.exists? path then loadFrom t path else .ok empty
  | none, none => .ok empty

def launch (s : Settings) (e : Environment) (o : Overrides) : Except SettingsError Launch :=
  match s.launch? e o with
  | some launch => .ok launch
  | none => .error .noServer

end Settings

end NoiseGate

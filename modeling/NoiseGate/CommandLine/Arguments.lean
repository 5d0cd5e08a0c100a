import NoiseGate.Settings.Environment

/-!
# Arguments

Arguments are read from left to right. An option takes its value from behind an equals sign, or
from the next argument if that does not look like an option. It is settled when the next option or
the end is reached, and only then are its faults found. Behind `--` all arguments are for the
server.
-/

namespace NoiseGate

inductive Setting
  | config
  | server
  | dir
  | logFile
  | noiseFile
  deriving DecidableEq

namespace Setting

def all : List Setting := [config, server, dir, logFile, noiseFile]

def name : Setting → String
  | config => "config"
  | server => "server"
  | dir => "cwd"
  | logFile => "log-file"
  | noiseFile => "noise-file"

/-- What kind of value it takes, as shown to the user. -/
def valueName : Setting → String
  | config => "FILE"
  | server => "COMMAND"
  | dir => "DIR"
  | logFile => "FILE"
  | noiseFile => "FILE"

def shown (s : Setting) : Text := ("--" ++ s.name ++ " <" ++ s.valueName ++ ">").toList

/-- Whether its value may be empty. A path may not. -/
def takesEmpty : Setting → Bool
  | server => true
  | _ => false

def named? (name : Text) : Option Setting := all.find? fun s => s.name.toList = name

end Setting

inductive Flag
  | help
  | version
  deriving DecidableEq

namespace Flag

def name : Flag → String
  | help => "help"
  | version => "version"

def named? (name : Text) : Option Flag := [help, version].find? fun f => f.name.toList = name

def short? : Char → Option Flag
  | 'h' => some help
  | 'V' => some version
  | _ => none

end Flag

inductive UsageError
  | unexpectedArgument (shown : Text)
  | missingValue (s : Setting)
  | repeated (s : Setting)
  | unexpectedValue (value : Text) (f : Flag)
  deriving DecidableEq

def UsageError.message : UsageError → Text
  | unexpectedArgument shown => "unexpected argument '".toList ++ shown ++ "' found".toList
  | missingValue s =>
    "a value is required for '".toList ++ s.shown ++ "' but none was supplied".toList
  | repeated s => "the argument '".toList ++ s.shown ++ "' cannot be used multiple times".toList
  | unexpectedValue value f =>
    "unexpected value '".toList ++ value ++ "' for '--".toList ++ f.name.toList ++
      "' found; no more were expected".toList

/-- The settings with their values, and the arguments for the server. -/
structure Arguments where
  values : List (Setting × Text)
  serverArgs : List Text
  deriving DecidableEq

/-- What a command line asks for. -/
inductive Request
  | run (a : Arguments)
  | show (f : Flag)
  deriving DecidableEq

namespace Arguments

def empty : Arguments := ⟨[], []⟩

def value? (a : Arguments) (s : Setting) : Option Text := a.values.lookup s

/-- Settles a setting. -/
def settle (a : Arguments) (s : Setting) (value : Option Text) : Except UsageError Arguments :=
  match value with
  | none => .error (.missingValue s)
  | some value =>
    if (a.value? s).isSome then .error (.repeated s)
    else if value.isEmpty && !s.takesEmpty then .error (.missingValue s)
    else .ok { a with values := a.values ++ [(s, value)] }

/-- Settles the setting that was read last, if it is not yet settled. -/
def settlePending (a : Arguments) : Option (Setting × Option Text) → Except UsageError Arguments
  | none => .ok a
  | some (s, value) => a.settle s value

/-- A long option without its dashes, split at its equals sign. -/
def splitLong (body : Text) : Text × Option Text :=
  let name := body.takeWhile (· ≠ '=')
  (name, if name.length < body.length then some (body.drop (name.length + 1)) else none)

/-- Reads arguments. `pending` is the setting that was read last, with its value if it has one. -/
def read (a : Arguments) (pending : Option (Setting × Option Text)) :
    List Text → Except UsageError Request
  | [] => (a.settlePending pending).map .run
  | ['-', '-'] :: rest =>
    (a.settlePending pending).map fun a => .run { a with serverArgs := rest }
  | ('-' :: '-' :: body) :: rest =>
    let (name, attached) := splitLong body
    match Setting.named? name, Flag.named? name, attached with
    | some s, _, none =>
      match a.settlePending pending with
      | .error e => .error e
      | .ok a => read a (some (s, none)) rest
    | some s, _, some value =>
      match (a.settlePending pending).bind (·.settle s (some value)) with
      | .error e => .error e
      | .ok a => read a none rest
    | none, some f, none => (a.settlePending pending).map fun _ => .show f
    | none, some f, some value => .error (.unexpectedValue value f)
    | none, none, _ => .error (.unexpectedArgument ('-' :: '-' :: name))
  | ('-' :: c :: _) :: _ =>
    match Flag.short? c with
    | some f => (a.settlePending pending).map fun _ => .show f
    | none => .error (.unexpectedArgument ['-', c])
  | word :: rest =>
    match pending with
    | some (s, none) => read a (some (s, some word)) rest
    | _ => .error (.unexpectedArgument word)

/-- The variable that stands in for the setting of a config file. -/
def configVariable : Text := "SIEVE_CONFIG".toList

def withDefaults (e : Environment) : Request → Except UsageError Request
  | .show f => .ok (.show f)
  | .run a =>
    match a.value? .config, e.get? configVariable with
    | none, some value => (a.settle .config (some value)).map .run
    | _, _ => .ok (.run a)

/-- Reads a command line. -/
def parse (e : Environment) (arguments : List Text) : Except UsageError Request :=
  (read .empty none arguments).bind (withDefaults e)

end Arguments

end NoiseGate

import NoiseGate.Settings.Environment
import NoiseGate.Shell.Format
import NoiseGate.Shell.State

/-!
# Running shell scripts

The commands that scripts for servers are made of. Some run in the shell itself and some are
programs of their own, which can also be launched without a shell.
-/

namespace NoiseGate.Shell

open State

inductive Tool
  | echo
  | printf
  | succeed
  | fail
  | changeDirectory
  | printDirectory
  | exportVariables
  | exit
  | kill
  | cat
  | tee
  | sleep
  deriving DecidableEq

namespace Tool

def named? (name : Text) : Option Tool :=
  [("echo", echo), ("printf", printf), ("true", succeed), (":", succeed), ("false", fail),
    ("cd", changeDirectory), ("pwd", printDirectory), ("export", exportVariables), ("exit", exit),
    ("kill", kill), ("cat", cat), ("tee", tee), ("sleep", sleep)].lookup (String.ofList name)

/-- Whether the shell runs it itself. -/
def isInner : Tool → Bool
  | cat => false
  | tee => false
  | sleep => false
  | _ => true

/-- Whether it is there as a program of its own. -/
def isProgram : Tool → Bool
  | changeDirectory => false
  | exportVariables => false
  | exit => false
  | _ => true

end Tool

def echoText (arguments : List Text) : Bytes :=
  let (words, ending) : List Text × Bytes := match arguments with
    | ['-', 'n'] :: rest => (rest, [])
    | _ => (arguments, [10])
  let text := (words.intersperse [' ']).flatten
  unescape true (text.length + 1) text ++ ending

def number? (t : Text) : Option Nat :=
  if t.isEmpty || t.any (!·.isDigit) then none else some (digitsValue (Utf8.encode t))

/-- Writes what each of the files holds. A dash is the input. -/
def catFiles (s : State) : List Text → State
  | [] => s
  | ['-'] :: rest =>
    let (data, s) := s.takeInput
    catFiles (s.print data) rest
  | path :: rest =>
    match s.files.read? path with
    | some data => catFiles (s.print data) rest
    | none =>
      let s := s.complain ("cat: ".toList ++ path ++ ": No such file or directory".toList)
      catFiles (s.withStatus 1) rest

/-- Writes the same data to each of the files. -/
def teeFiles (s : State) (data : Bytes) : List Text → State
  | [] => s.print data
  | path :: rest =>
    match s.files.create path with
    | some (files, location) =>
      teeFiles { s with files := (files.append location data).1 } data rest
    | none => teeFiles (s.withStatus 1) data rest

/-- Whether the arguments of `kill` name the shell itself. -/
def killsSelf (arguments : List Text) : Bool := arguments.getLast? = some processNumber

/-- Changes the directory that paths begin from. -/
def changeTo (s : State) (path : Path) : State :=
  match (s.files.locate path).filter s.files.isDirectory with
  | some location =>
    { s with files := { s.files with start := location } }.set "PWD".toList (directoryText location)
  | none =>
    (s.complain (s.name ++ ": 1: cd: can't cd to ".toList ++ path)).withStatus 2

/-- Runs a tool with its arguments. -/
def useTool (s : State) (tool : Tool) (arguments : List Text) : State :=
  let s := s.withStatus 0
  match tool with
  | .echo => s.print (echoText arguments)
  | .printf =>
    match arguments with
    | [] => s.withStatus 2
    | format :: rest =>
      match format? format rest with
      | some data => s.print data
      | none => s.withStatus 2
  | .succeed => s
  | .fail => s.withStatus 1
  | .changeDirectory =>
    changeTo s (arguments.headD ((s.bindings.lookup "HOME".toList).getD []))
  | .printDirectory => s.print (Utf8.encode (directoryText s.files.start ++ ['\n']))
  | .exportVariables =>
    s.assign (arguments.filterMap fun argument => assignment? [.text false argument])
  | .exit => s
  | .kill => if killsSelf arguments then { s with life := .killed } else s.withStatus 1
  | .cat => catFiles s (if arguments.isEmpty then [['-']] else arguments)
  | .tee =>
    let (data, s) := s.takeInput
    teeFiles s data arguments
  | .sleep => s

/-- Runs a command by its name. -/
def runWords (s : State) : List Text → State
  | [] => s
  | name :: arguments =>
    match Tool.named? name with
    | some .exit =>
      let status := match arguments with
        | [] => s.status
        | t :: _ => (number? t).getD 2
      { s with status := status % 256, life := .ended (status % 256) }
    | some tool =>
      if tool.isInner then useTool s tool arguments else (useTool s.pause tool arguments).pause
    | none =>
      (s.complain (s.name ++ ": 1: ".toList ++ name ++ ": not found".toList)).withStatus 127

/-- Ends a shell that was still running with the status of its last command. -/
def conclude (s : State) : State :=
  match s.life with
  | .running => { s with life := .ended s.status }
  | _ => s

/-- The streams after a command for which they were redirected. What was read from a file that was
open before stays read. -/
def restore (before after : Streams) (redirections : List Redirection) : Streams :=
  let isRead : Redirection → Bool
    | .read _ => true
    | _ => false
  if before.input.isSome && !redirections.any isRead then { before with input := after.input }
  else before

/-- Runs a simple command. Redirections last as long as it, except those of an `exec` without a
command. -/
def runSimple (s : State) (c : SimpleCommand) : State :=
  let words := c.words.flatMap s.expandWord
  match c.redirections.foldlM (·.redirect) (s.assign c.assignments) with
  | none => s.withStatus 2
  | some redirected =>
    let after (t : State) : State :=
      { t with streams := restore s.streams t.streams c.redirections }
    match words with
    | [] => after (redirected.withStatus 0)
    | ['e', 'x', 'e', 'c'] :: [] => redirected.withStatus 0
    | ['e', 'x', 'e', 'c'] :: words => conclude (runWords redirected.pause words)
    | words => after (runWords redirected words)

def isRun (status : Nat) : Link → Bool
  | .always => true
  | .onSuccess => status = 0
  | .onFailure => status ≠ 0

/-- Runs commands up to the end, or until the shell has ended. -/
def runAll (s : State) : Commands → State
  | [] => conclude s
  | (link, c) :: rest =>
    if s.life = .running then runAll (if isRun s.status link then runSimple s c else s) rest else s

def outcome (s : State) : Outcome where
  writes := s.pause.written
  files := s.files
  status := match s.life with
    | .running => some s.status
    | .ended n => some n
    | .killed => none

def start (e : Environment) (name : Text) (arguments : List Text) (files : FileTree)
    (input : Bytes) : State where
  name := name
  arguments := arguments
  bindings := ("PWD".toList, directoryText files.start) :: e.bindings
  files := files
  input := input
  streams := ownStreams
  written := []
  fresh := []
  status := 0
  life := .running

/-- Runs a script. A script with a fault in it is not begun. -/
def runScript (s : State) (script : Text) : State :=
  match parse? script with
  | some commands => runAll s commands
  | none => conclude ((s.complain (s.name ++ ": 1: Syntax error".toList)).withStatus 2)

/-- The shell as a program. The script is its second argument after `-c`, or else a file or the
input. -/
def program (e : Environment) (arguments : List Text) : Program := fun files input =>
  let name := "sh".toList
  match arguments with
  | ['-', 'c'] :: script :: rest =>
    outcome (runScript (start e (rest.headD name) rest.tail files input) script)
  | ['-', 'c'] :: [] => outcome (conclude ((start e name [] files input).withStatus 2))
  | path :: rest =>
    match (files.read? path).bind Utf8.decode? with
    | some script => outcome (runScript (start e path rest files input) script)
    | none => outcome (conclude ((start e name [] files input).withStatus 2))
  | [] =>
    match Utf8.decode? input with
    | some script => outcome (runScript (start e name [] files []) script)
    | none => outcome (conclude ((start e name [] files []).withStatus 127))

/-- A tool as a program. -/
def toolProgram (e : Environment) (tool : Tool) (arguments : List Text) : Program :=
  fun files input => outcome (conclude (useTool (start e [] [] files input) tool arguments))

/-- The program of a name. -/
def program? (e : Environment) (name : Text) : Option (List Text → Program) :=
  if name = "sh".toList then some (program e)
  else
    match Tool.named? name with
    | some tool => if tool.isProgram && name ≠ [':'] then some (toolProgram e tool) else none
    | none => none

end NoiseGate.Shell

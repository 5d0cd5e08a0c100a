import NoiseGate.Server.Program
import NoiseGate.Shell.Pattern
import NoiseGate.Shell.Syntax
import NoiseGate.Text.Digits
import NoiseGate.Text.Utf8

/-!
# The state of a shell

A shell has variables and arguments, the files, what is left of its input, and streams that lead to
its own output, to files, or from a file. Bytes that are written without a pause come together.
-/

namespace NoiseGate.Shell

/-- Where a stream leads that is written. -/
inductive Sink
  | channel (c : Channel)
  | file (location : Location)
  deriving DecidableEq

structure Streams where
  output : Sink
  errors : Sink
  /-- What is read instead of the shell's own input. -/
  input : Option Bytes

inductive Life
  | running
  | ended (status : Nat)
  | killed
  deriving DecidableEq

structure State where
  /-- The name under which the shell was launched. -/
  name : Text
  arguments : List Text
  bindings : List (Text × Text)
  files : FileTree
  input : Bytes
  streams : Streams
  /-- What was written before the last pause. -/
  written : List (Channel × Bytes)
  /-- What was written since. -/
  fresh : List (Channel × Bytes)
  status : Nat
  life : Life

namespace State

def ownStreams : Streams := ⟨.channel .output, .channel .errors, none⟩

/-- The number under which a shell knows its own process. -/
def processNumber : Text := "2".toList

/-- Appends to what was written to the same channel, if anything was. -/
def join (channel : Channel) (data : Bytes) : List (Channel × Bytes) → List (Channel × Bytes)
  | [] => [(channel, data)]
  | (other, before) :: rest =>
    if other = channel then (other, before ++ data) :: rest
    else (other, before) :: join channel data rest

def writeTo (s : State) (sink : Sink) (data : Bytes) : State :=
  if data.isEmpty then s
  else
    match sink with
    | .channel c => { s with fresh := join c data s.fresh }
    | .file location => { s with files := (s.files.append location data).1 }

def print (s : State) (data : Bytes) : State := s.writeTo s.streams.output data

def complain (s : State) (message : Text) : State :=
  s.writeTo s.streams.errors (Utf8.encode (message ++ ['\n']))

/-- Another process takes its time to start and to end. -/
def pause (s : State) : State := { s with written := s.written ++ s.fresh, fresh := [] }

def withStatus (s : State) (n : Nat) : State := { s with status := n }

/-- Takes all input that is left. -/
def takeInput (s : State) : Bytes × State :=
  match s.streams.input with
  | some data => (data, { s with streams := { s.streams with input := some [] } })
  | none => (s.input, { s with input := [] })

def numberText (n : Nat) : Text := (decimal n).map fun b => Char.ofNat b.toNat

def directoryText (location : Location) : Text :=
  if location.isEmpty then ['/'] else location.flatMap fun name => '/' :: name

def set (s : State) (name value : Text) : State :=
  { s with bindings := (name, value) :: s.bindings.filter fun (other, _) => other ≠ name }

def value? (s : State) (name : Text) : Option Text :=
  match name with
  | ['?'] => some (numberText s.status)
  | ['$'] => some processNumber
  | ['#'] => some (numberText s.arguments.length)
  | ['@'] => some (s.arguments.intersperse [' ']).flatten
  | ['*'] => some (s.arguments.intersperse [' ']).flatten
  | [c] =>
    if c.isDigit then (s.name :: s.arguments)[c.toNat - 48]? else s.bindings.lookup name
  | _ => s.bindings.lookup name

def apply (value : Option Text) : Use → Text
  | .whole => value.getD []
  | .size => numberText (value.getD []).length
  | .orElse orEmpty other =>
    match value with
    | none => other
    | some t => if orEmpty && t.isEmpty then other else t
  | .dropFront longest pattern => dropFront longest pattern (value.getD [])
  | .dropBack longest pattern => dropBack longest pattern (value.getD [])

def isSpace (c : Char) : Bool := c = ' ' || c = '\t' || c = '\n'

/-- Words under construction: those that are complete, and the last one if it was begun. -/
structure Fields where
  done : List Text
  last : Option Text

namespace Fields

def empty : Fields := ⟨[], none⟩

def extend (f : Fields) (t : Text) : Fields := ⟨f.done, some (f.last.getD [] ++ t)⟩

def close (f : Fields) : Fields := ⟨f.done ++ f.last.toList, none⟩

/-- Adds a text whose spaces separate words. -/
def split (f : Fields) : Text → Fields
  | [] => f
  | c :: t => if isSpace c then split f.close t else split (f.extend [c]) t

/-- Adds texts each of which is a word of its own. -/
def separate (f : Fields) : List Text → Fields
  | [] => f
  | [t] => f.extend t
  | t :: rest => separate (f.extend t).close rest

end Fields

def addPart (s : State) (f : Fields) : Part → Fields
  | .text _ t => f.extend t
  | .value true ['@'] .whole => f.separate s.arguments
  | .value true name use => f.extend (apply (s.value? name) use)
  | .value false name use => f.split (apply (s.value? name) use)

/-- The words that a word stands for. -/
def expandWord (s : State) (w : Word) : List Text := (w.foldl s.addPart .empty).close.done

/-- The text that a word stands for where no splitting takes place. -/
def expandText (s : State) (w : Word) : Text :=
  w.flatMap fun
    | .text _ t => t
    | .value _ name use => apply (s.value? name) use

def assign (s : State) (assignments : List (Text × Word)) : State :=
  assignments.foldl (fun s (name, w) => s.set name (s.expandText w)) s

def sink (s : State) (number : Nat) : Option Sink :=
  if number = 1 then some s.streams.output
  else if number = 2 then some s.streams.errors
  else none

def redirectTo (s : State) (number : Nat) (sink : Sink) : State :=
  if number = 1 then { s with streams := { s.streams with output := sink } }
  else if number = 2 then { s with streams := { s.streams with errors := sink } }
  else s

/-- Redirects a stream. There is no result if a file cannot be opened. -/
def redirect (s : State) : Redirection → Option State
  | .copy number target => (s.sink target).map (s.redirectTo number)
  | .read source =>
    (s.files.read? (s.expandText source)).map fun data =>
      { s with streams := { s.streams with input := some data } }
  | .write number append target => do
    let (files, location) ← s.files.create (s.expandText target)
    let files := match files.entry? location, append with
      | some (.file _), false => files.put location (.file [])
      | _, _ => files
    return { s with files := files }.redirectTo number (.file location)

end State

end NoiseGate.Shell

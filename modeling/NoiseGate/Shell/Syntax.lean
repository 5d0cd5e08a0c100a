import NoiseGate.Bytes

/-!
# Shell scripts

Servers are often launched through a line of shell script. A script is a list of simple commands,
each with the condition under which it is run. A word is made of text and of references to
variables; quotation marks keep what a reference stands for in one word.
-/

namespace NoiseGate.Shell

/-- What becomes of the value of a variable. -/
inductive Use
  | whole
  | size
  /-- Another text, if there is no value, or none but an empty one. -/
  | orElse (orEmpty : Bool) (other : Text)
  | dropFront (longest : Bool) (pattern : Text)
  | dropBack (longest : Bool) (pattern : Text)
  deriving DecidableEq

inductive Part
  | text (quoted : Bool) (t : Text)
  | value (quoted : Bool) (name : Text) (use : Use)
  deriving DecidableEq

abbrev Word := List Part

inductive Redirection
  | write (number : Nat) (append : Bool) (target : Word)
  | read (source : Word)
  | copy (number : Nat) (target : Nat)
  deriving DecidableEq

structure SimpleCommand where
  assignments : List (Text × Word)
  words : List Word
  redirections : List Redirection
  deriving DecidableEq

/-- When a command is run, given the status of the one before it. -/
inductive Link
  | always
  | onSuccess
  | onFailure
  deriving DecidableEq

abbrev Commands := List (Link × SimpleCommand)

inductive Token
  | word (w : Word)
  | link (l : Link)
  | write (number : Nat) (append : Bool)
  | read
  | copy (number : Nat)
  deriving DecidableEq

def isNameStart (c : Char) : Bool := c.isAlpha || c = '_'

def isNameChar (c : Char) : Bool := c.isAlphanum || c = '_'

def isSpecialName (c : Char) : Bool := c.isDigit || "#?$@*".toList.contains c

/-- Takes the name of a variable off the front. -/
def takeName (s : Text) : Text × Text :=
  match s with
  | [] => ([], [])
  | c :: rest =>
    if isNameStart c then (s.takeWhile isNameChar, s.dropWhile isNameChar)
    else if isSpecialName c then ([c], rest)
    else ([], s)

/-- The use of a variable, from what stands behind its name between braces. -/
def ofSuffix? : Text → Option Use
  | [] => some .whole
  | ':' :: '-' :: other => some (.orElse true other)
  | '-' :: other => some (.orElse false other)
  | '#' :: '#' :: pattern => some (.dropFront true pattern)
  | '#' :: pattern => some (.dropFront false pattern)
  | '%' :: '%' :: pattern => some (.dropBack true pattern)
  | '%' :: pattern => some (.dropBack false pattern)
  | _ => none

/-- A reference between braces. -/
def ofBraces? (quoted : Bool) (inner : Text) : Option Part :=
  match inner with
  | '#' :: c :: rest =>
    let (name, suffix) := takeName (c :: rest)
    if !name.isEmpty && suffix.isEmpty then some (.value quoted name .size) else none
  | _ =>
    let (name, suffix) := takeName inner
    if name.isEmpty then none else (ofSuffix? suffix).map (.value quoted name ·)

/-- Reads a reference behind its dollar sign. A dollar sign without a name is text. -/
def readReference (quoted : Bool) : Text → Option (Part × Text)
  | '\x7b' :: s =>
    let inner := s.takeWhile (· ≠ '\x7d')
    match s.dropWhile (· ≠ '\x7d') with
    | [] => none
    | _ :: rest => (ofBraces? quoted inner).map (·, rest)
  | s =>
    let (name, rest) := takeName s
    some (if name.isEmpty then .text quoted ['$'] else .value quoted name .whole, rest)

/-- The characters that a backslash makes plain between quotation marks. -/
def isQuotable (c : Char) : Bool := "$`\"\\".toList.contains c

/-- Reads up to a closing quotation mark. Each step takes a character. -/
def readQuoted : Nat → List Part → Text → Option (List Part × Text)
  | 0, _, _ => none
  | fuel + 1, parts, s =>
    match s with
    | [] => none
    | '"' :: s => some (parts, s)
    | '\\' :: '\n' :: s => readQuoted fuel parts s
    | '\\' :: c :: s =>
      readQuoted fuel (.text true (if isQuotable c then [c] else ['\\', c]) :: parts) s
    | '$' :: s => do
      let (p, s) ← readReference true s
      readQuoted fuel (p :: parts) s
    | c :: s => readQuoted fuel (.text true [c] :: parts) s

def isBreak (c : Char) : Bool := " \t\n;&|<>()".toList.contains c

/-- Reads a word. The parts are gathered in reverse. -/
def readWord : Nat → List Part → Text → Option (List Part × Text)
  | 0, _, _ => none
  | fuel + 1, parts, s =>
    match s with
    | [] => some (parts.reverse, [])
    | '\'' :: s =>
      match s.dropWhile (· ≠ '\'') with
      | [] => none
      | _ :: rest => readWord fuel (.text true (s.takeWhile (· ≠ '\'')) :: parts) rest
    | '"' :: s => do
      let (parts, s) ← readQuoted fuel (.text true [] :: parts) s
      readWord fuel parts s
    | '\\' :: '\n' :: s => readWord fuel parts s
    | '\\' :: c :: s => readWord fuel (.text true [c] :: parts) s
    | '$' :: s => do
      let (p, s) ← readReference false s
      readWord fuel (p :: parts) s
    | c :: s =>
      if isBreak c then some (parts.reverse, c :: s)
      else
        match parts with
        | .text false t :: parts => readWord fuel (.text false (t ++ [c]) :: parts) s
        | parts => readWord fuel (.text false [c] :: parts) s

/-- Reads the sign of a redirection behind the number of the stream. -/
def readRedirection (number : Option Nat) : Text → Option (Token × Text)
  | '>' :: '>' :: s => some (.write (number.getD 1) true, s)
  | '>' :: '&' :: s => some (.copy (number.getD 1), s)
  | '>' :: s => some (.write (number.getD 1) false, s)
  | '<' :: s => some (.read, s)
  | _ => none

def tokens : Nat → Text → Option (List Token)
  | 0, _ => none
  | fuel + 1, s =>
    match s with
    | [] => some []
    | '\\' :: '\n' :: s => tokens fuel s
    | '\n' :: s => (tokens fuel s).map (.link .always :: ·)
    | ';' :: ';' :: _ => none
    | ';' :: s => (tokens fuel s).map (.link .always :: ·)
    | '&' :: '&' :: s => (tokens fuel s).map (.link .onSuccess :: ·)
    | '|' :: '|' :: s => (tokens fuel s).map (.link .onFailure :: ·)
    | '#' :: s => tokens fuel (s.dropWhile (· ≠ '\n'))
    | c :: rest =>
      if c = ' ' || c = '\t' then tokens fuel rest
      else
        let number := if c.isDigit then some (c.toNat - 48) else none
        match readRedirection number (if number.isSome then rest else s) with
        | some (token, s) => (tokens fuel s).map (token :: ·)
        | none =>
          if isBreak c then none
          else do
            let (w, s) ← readWord (s.length + 1) [] s
            return .word w :: (← tokens fuel s)

/-- A word that gives a variable a value. -/
def assignment? : Word → Option (Text × Word)
  | .text false t :: rest =>
    let name := t.takeWhile isNameChar
    match name, t.dropWhile isNameChar with
    | c :: _, '=' :: value =>
      if isNameStart c then
        some (name, if value.isEmpty then rest else .text false value :: rest)
      else none
    | _, _ => none
  | _ => none

def SimpleCommand.empty : SimpleCommand := ⟨[], [], []⟩

def SimpleCommand.add (c : SimpleCommand) (w : Word) : SimpleCommand :=
  match c.words, assignment? w with
  | [], some a => { c with assignments := c.assignments ++ [a] }
  | _, _ => { c with words := c.words ++ [w] }

def SimpleCommand.redirect (c : SimpleCommand) (r : Redirection) : SimpleCommand :=
  { c with redirections := c.redirections ++ [r] }

/-- The number that a stream is copied to. -/
def streamNumber? : Word → Option Nat
  | [.text false [c]] => if c.isDigit then some (c.toNat - 48) else none
  | _ => none

/-- Puts tokens together to commands. -/
def commands (link : Link) (c : SimpleCommand) : List Token → Option Commands
  | [] =>
    if c = .empty then if link = .always then some [] else none
    else some [(link, c)]
  | .link l :: rest =>
    if c = .empty then
      if l = .always then commands link c rest else none
    else (commands l .empty rest).map ((link, c) :: ·)
  | .word w :: rest => commands link (c.add w) rest
  | .write number append :: .word w :: rest =>
    commands link (c.redirect (.write number append w)) rest
  | .read :: .word w :: rest => commands link (c.redirect (.read w)) rest
  | .copy number :: .word w :: rest =>
    (streamNumber? w).bind fun target => commands link (c.redirect (.copy number target)) rest
  | _ => none

def parse? (script : Text) : Option Commands :=
  (tokens (script.length + 1) script).bind (commands .always .empty)

end NoiseGate.Shell

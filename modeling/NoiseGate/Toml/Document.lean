import NoiseGate.Toml.Moment
import NoiseGate.Toml.Numeral

/-!
# TOML documents

A document is a list of statements, one on each line: a header that opens a table, or a member of
the table that was opened last. Arrays and tables that are written as values may run over several
lines and may end in a comma.
-/

namespace NoiseGate.Toml

/-- Skips gaps, line breaks and comments. `comment` says whether it starts inside a comment. -/
def skipLines (comment : Bool) : Text → Text
  | [] => []
  | '\r' :: '\n' :: s => skipLines false s
  | c :: s =>
    if c = '\n' then skipLines false s
    else if comment then if isPlain c then skipLines true s else c :: s
    else if isGap c then skipLines false s
    else if c = '#' then skipLines true s
    else c :: s

def isBare (c : Char) : Bool := c.isAlphanum || c = '_' || c = '-'

/-- Reads one part of a key. -/
def readName (s : Text) : Option (Text × Text) :=
  match s with
  | '"' :: _ => readLine s
  | '\'' :: _ => readLine s
  | _ =>
    let name := s.takeWhile isBare
    if name.isEmpty then none else some (name, s.dropWhile isBare)

/-- Reads the parts of a key, with the gaps around them. -/
def readNames : Nat → Text → Option (Key × Text)
  | 0, _ => none
  | fuel + 1, s => do
    let (name, s) ← readName (skipGap s)
    match skipGap s with
    | '.' :: s =>
      let (names, s) ← readNames fuel s
      return (name :: names, s)
    | s => return ([name], s)

/-- Reads a key. Each of its parts takes a character. -/
def readKey (s : Text) : Option (Key × Text) := readNames (s.length + 1) s

def isAtomic (c : Char) : Bool := isBare c || c = '+' || c = '.' || c = ':'

def ofAtom? (atom : Text) : Option Item :=
  if atom = "true".toList then some (.bool true)
  else if atom = "false".toList then some (.bool false)
  else if isMoment atom then some .moment
  else if isReal atom then some .real
  else (integer? atom).map .integer

/-- Reads a value that has no parts. A date and a time may have one space between them. -/
def readScalar (s : Text) : Option (Item × Text) :=
  match s with
  | '"' :: _ => (readText s).map fun (text, s) => (.text text, s)
  | '\'' :: _ => (readText s).map fun (text, s) => (.text text, s)
  | _ =>
    let atom := s.takeWhile isAtomic
    let rest := s.dropWhile isAtomic
    match rest with
    | ' ' :: c :: s =>
      if isDate atom && c.isDigit then
        let moment := atom ++ ' ' :: (c :: s).takeWhile isAtomic
        if isMoment moment then some (.moment, (c :: s).dropWhile isAtomic) else none
      else (ofAtom? atom).map (·, rest)
    | _ => (ofAtom? atom).map (·, rest)

/-- Reads the parts of a value up to a closing mark, with commas between them. -/
def readParts {α : Type} (part : Text → Option (α × Text)) (close : Char) :
    Nat → List α → Text → Option (List α × Text)
  | 0, _, _ => none
  | fuel + 1, parts, s =>
    match skipLines false s with
    | [] => none
    | c :: rest =>
      if c = close then some (parts.reverse, rest)
      else do
        let (p, s) ← part (c :: rest)
        match skipLines false s with
        | [] => none
        | d :: rest =>
          if d = close then some ((p :: parts).reverse, rest)
          else if d = ',' then readParts part close fuel (p :: parts) rest
          else none

/-- Reads the parts of a value behind its opening mark. Each of them takes a character. -/
def readList {α : Type} (part : Text → Option (α × Text)) (close : Char) (s : Text) :
    Option (List α × Text) :=
  readParts part close (s.length + 1) [] s

/-- Reads a member of a table that is written as a value. Lines may break anywhere in it, except
inside the key. -/
def readPair (value : Text → Option (Item × Text)) (s : Text) : Option ((Key × Item) × Text) := do
  let (key, s) ← readKey s
  match skipLines false s with
  | '=' :: s =>
    let (item, s) ← value (skipLines false s)
    return ((key, item), s)
  | _ => none

/-- The nesting that a value may have. -/
def maxNesting : Nat := 80

/-- Reads a value that nests at most `depth` arrays and tables. -/
def readValue : Nat → Text → Option (Item × Text)
  | depth + 1, '[' :: s => do
    let (items, s) ← readList (readValue depth) ']' s
    return (.array items, s)
  | depth + 1, '\x7b' :: s => do
    let (members, s) ← readList (readPair (readValue depth)) '\x7d' s
    return (← Item.ofMembers members, s)
  | _, s => readScalar s

inductive Statement
  | openTable (key : Key)
  | openNext (key : Key)
  | member (key : Key) (item : Item)

def readStatement (s : Text) : Option (Statement × Text) :=
  match s with
  | '[' :: '[' :: s => do
    match ← readKey s with
    | (key, ']' :: ']' :: s) => return (.openNext key, s)
    | _ => none
  | '[' :: s => do
    match ← readKey s with
    | (key, ']' :: s) => return (.openTable key, s)
    | _ => none
  | s => do
    match ← readKey s with
    | (key, '=' :: s) =>
      let (item, s) ← readValue maxNesting (skipGap s)
      return (.member key item, s)
    | _ => none

/-- The rest behind the line break that ends a statement, or nothing behind the last one. -/
def endLine (s : Text) : Option Text :=
  let s := skipGap s
  let s := if s.head? = some '#' then s.dropWhile isPlain else s
  if s.isEmpty then some [] else lineBreak? s

def readStatements : Nat → List Statement → Text → Option (List Statement)
  | 0, _, _ => none
  | fuel + 1, statements, s =>
    match skipLines false s with
    | [] => some statements.reverse
    | s => do
      let (statement, s) ← readStatement s
      readStatements fuel (statement :: statements) (← endLine s)

/-- A document with the key of the table that was opened last. -/
structure Draft where
  root : Item
  current : Key

namespace Draft

def start : Draft := ⟨.empty .header, []⟩

def add (d : Draft) : Statement → Option Draft
  | .openTable key => (d.root.openTable key).map (⟨·, key⟩)
  | .openNext key => (d.root.openNext key).map (⟨·, key⟩)
  | .member key item =>
    (d.root.update false (fun origin members => (Item.table origin members).insert key item)
      d.current).map (⟨·, d.current⟩)

end Draft

/-- The root table of a document. A byte order mark in front does not count. -/
def parse? (text : Text) : Option Item := do
  let text := if text.head? = some '\uFEFF' then text.drop 1 else text
  let statements ← readStatements (text.length + 1) [] text
  return (← statements.foldlM Draft.add .start).root

end NoiseGate.Toml

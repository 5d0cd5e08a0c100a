import NoiseGate.Json.Numeral

/-!
# JSON syntax

The tree of a JSON text keeps numerals and strings as they are written, and knows nothing of their
values. A text may therefore have a tree although one of its numbers is too large, one of its
strings is not UTF-8, or its nesting is too deep for a value.
-/

namespace NoiseGate.Json

/-- A byte of a string, or the code unit that an escape stands for. -/
inductive StringPart
  | raw (b : UInt8)
  | unit (code : Nat)
  deriving DecidableEq

abbrev RawString := List StringPart

inductive Tree
  | null
  | bool (b : Bool)
  | number (n : Numeral)
  | string (s : RawString)
  | array (items : List Tree)
  | object (members : List (RawString × Tree))

def isSpace (b : UInt8) : Bool := b = 32 || b = 10 || b = 9 || b = 13

def skipSpace (s : Bytes) : Bytes := s.dropWhile isSpace

def hexDigit? (b : UInt8) : Option Nat :=
  if isDigit b then some (digitValue b)
  else if 97 ≤ b ∧ b ≤ 102 then some (b.toNat - 87)
  else if 65 ≤ b ∧ b ≤ 70 then some (b.toNat - 55)
  else none

def hexUnit? (a b c d : UInt8) : Option Nat := do
  return (((← hexDigit? a) * 16 + (← hexDigit? b)) * 16 + (← hexDigit? c)) * 16 + (← hexDigit? d)

/-- The code of an escape of one character. -/
def shortEscape? (b : UInt8) : Option Nat :=
  if b = 34 then some 34
  else if b = 92 then some 92
  else if b = 47 then some 47
  else if b = 98 then some 8
  else if b = 102 then some 12
  else if b = 110 then some 10
  else if b = 114 then some 13
  else if b = 116 then some 9
  else none

/-- Reads a string after its opening quote. The parts are gathered in reverse behind `parts`. -/
def readString (parts : RawString) : Bytes → Option (RawString × Bytes)
  | [] => none
  | 34 :: rest => some (parts.reverse, rest)
  | 92 :: 117 :: a :: b :: c :: d :: rest =>
    match hexUnit? a b c d with
    | some code => readString (.unit code :: parts) rest
    | none => none
  | 92 :: e :: rest =>
    match shortEscape? e with
    | some code => readString (.unit code :: parts) rest
    | none => none
  | b :: rest => if b < 32 then none else readString (.raw b :: parts) rest

/-- Reads one or more items with commas between them, up to a closing byte. -/
def readItems {α : Type} (item : Bytes → Option (α × Bytes)) (close : UInt8) :
    Nat → List α → Bytes → Option (List α × Bytes)
  | 0, _, _ => none
  | fuel + 1, items, s => do
    let (x, s) ← item s
    match skipSpace s with
    | [] => none
    | b :: rest =>
      if b = close then some ((x :: items).reverse, rest)
      else if b = 44 then readItems item close fuel (x :: items) rest
      else none

/-- Reads any number of items after their opening byte. -/
def readList {α : Type} (item : Bytes → Option (α × Bytes)) (close : UInt8) (s : Bytes) :
    Option (List α × Bytes) :=
  match skipSpace s with
  | [] => none
  | b :: rest => if b = close then some ([], rest) else readItems item close s.length [] s

def readMember (value : Bytes → Option (Tree × Bytes)) (s : Bytes) :
    Option ((RawString × Tree) × Bytes) :=
  match skipSpace s with
  | 34 :: rest => do
    let (key, s) ← readString [] rest
    match skipSpace s with
    | 58 :: rest =>
      let (t, s) ← value rest
      return ((key, t), s)
    | _ => none
  | _ => none

def readLiteral (word : Bytes) (t : Tree) (s : Bytes) : Option (Tree × Bytes) :=
  if word.isPrefixOf s then some (t, s.drop word.length) else none

namespace Tree

/-- Reads the value at the front, with at most `depth` lists around its innermost value. -/
def read : Nat → Bytes → Option (Tree × Bytes)
  | 0, _ => none
  | depth + 1, s =>
    match skipSpace s with
    | [] => none
    | b :: rest =>
      if b = 34 then (readString [] rest).map fun (parts, s) => (.string parts, s)
      else if b = 91 then (readList (read depth) 93 rest).map fun (items, s) => (.array items, s)
      else if b = 123 then
        (readList (readMember (read depth)) 125 rest).map fun (members, s) => (.object members, s)
      else if b = 110 then readLiteral (ascii "ull") .null rest
      else if b = 116 then readLiteral (ascii "rue") (.bool true) rest
      else if b = 102 then readLiteral (ascii "alse") (.bool false) rest
      else (Numeral.read (b :: rest)).map fun (n, s) => (.number n, s)

/-- The tree of a whole text. No text nests deeper than it is long. -/
def parse? (text : Bytes) : Option Tree :=
  match read (text.length + 1) text with
  | some (t, rest) => if (skipSpace rest).isEmpty then some t else none
  | none => none

end Tree

end NoiseGate.Json

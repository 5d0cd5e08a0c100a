import NoiseGate.Bytes

/-!
# Quoted text in TOML

Text stands between quotation marks, where a backslash begins an escape, or between apostrophes,
where it does not. Three marks in place of one make a block, which may run over several lines.
-/

namespace NoiseGate.Toml

/-- Space between the parts of a line. -/
def isGap (c : Char) : Bool := c = ' ' || c = '\t'

def skipGap (s : Text) : Text := s.dropWhile isGap

/-- A character that may stand in text and in comments. -/
def isPlain (c : Char) : Bool := c = '\t' || ' ' ≤ c && c ≠ '\x7f'

/-- The rest behind a line break, if there is one at the front. -/
def lineBreak? : Text → Option Text
  | '\n' :: s => some s
  | '\r' :: '\n' :: s => some s
  | _ => none

/-- Cuts off text up to a closing mark on the same line. -/
def cutLine (mark : Char) (escapes : Bool) : Text → Option (Text × Text)
  | [] => none
  | c :: s =>
    if c = mark then some ([], s)
    else if escapes && c = '\\' then
      match s with
      | [] => none
      | e :: s => (cutLine mark escapes s).map fun (raw, rest) => (c :: e :: raw, rest)
    else (cutLine mark escapes s).map fun (raw, rest) => (c :: raw, rest)

/-- Cuts off text up to three closing marks. One or two more marks before them are text. -/
def cutBlock (mark : Char) (escapes : Bool) : Text → Option (Text × Text)
  | [] => none
  | c :: s =>
    if c = mark && [mark, mark].isPrefixOf s then
      let extra := min 2 ((s.drop 2).takeWhile (· = mark)).length
      some (List.replicate extra mark, s.drop (2 + extra))
    else if escapes && c = '\\' then
      match s with
      | [] => none
      | e :: s => (cutBlock mark escapes s).map fun (raw, rest) => (c :: e :: raw, rest)
    else (cutBlock mark escapes s).map fun (raw, rest) => (c :: raw, rest)

def hexValue? (c : Char) : Option Nat :=
  if c.isDigit then some (c.toNat - 48)
  else if 'a' ≤ c ∧ c ≤ 'f' then some (c.toNat - 87)
  else if 'A' ≤ c ∧ c ≤ 'F' then some (c.toNat - 55)
  else none

/-- The character whose number is given by hexadecimal digits. -/
def numbered? (digits : Text) : Option Char := do
  let n ← digits.foldlM (fun n c => (hexValue? c).map (16 * n + ·)) 0
  if n.isValidChar then some (Char.ofNat n) else none

def escaped? : Char → Option Char
  | 'b' => some '\x08'
  | 't' => some '\t'
  | 'n' => some '\n'
  | 'f' => some '\x0c'
  | 'r' => some '\r'
  | 'e' => some '\x1b'
  | '"' => some '"'
  | '\\' => some '\\'
  | _ => none

/-- Text without escapes. It holds line breaks only in a block. -/
def verbatim? (block : Bool) : Text → Option Text
  | [] => some []
  | '\r' :: '\n' :: s => if block then (verbatim? block s).map ('\r' :: '\n' :: ·) else none
  | c :: s =>
    if isPlain c || block && c = '\n' then (verbatim? block s).map (c :: ·) else none

/-- Text with escapes. In a block, an escaped line break stands for nothing, together with all gaps
and line breaks behind it. `joining` says that these are being skipped. -/
def unescape? (block : Bool) (joining : Bool) : Text → Option Text
  | [] => some []
  | '\r' :: '\n' :: s =>
    if joining then unescape? block true s
    else if block then (unescape? block false s).map ('\r' :: '\n' :: ·)
    else none
  | '\\' :: 'x' :: a :: b :: s => do return (← numbered? [a, b]) :: (← unescape? block false s)
  | '\\' :: 'u' :: a :: b :: c :: d :: s => do
    return (← numbered? [a, b, c, d]) :: (← unescape? block false s)
  | '\\' :: 'U' :: a :: b :: c :: d :: e :: f :: g :: h :: s => do
    return (← numbered? [a, b, c, d, e, f, g, h]) :: (← unescape? block false s)
  | '\\' :: e :: s =>
    match escaped? e with
    | some c => (unescape? block false s).map (c :: ·)
    | none =>
      if block && (lineBreak? (skipGap (e :: s))).isSome then unescape? block true (e :: s)
      else none
  | c :: s =>
    if joining && (isGap c || c = '\n') then unescape? block true s
    else if c ≠ '\\' && isPlain c || block && c = '\n' then
      (unescape? block false s).map (c :: ·)
    else none

/-- The line break right behind the opening marks of a block does not count. -/
def dropFirstBreak (raw : Text) : Text := (lineBreak? raw).getD raw

/-- Reads text on one line. -/
def readLine : Text → Option (Text × Text)
  | '"' :: s => do
    let (raw, rest) ← cutLine '"' true s
    return (← unescape? false false raw, rest)
  | '\'' :: s => do
    let (raw, rest) ← cutLine '\'' false s
    return (← verbatim? false raw, rest)
  | _ => none

/-- Reads text that is given as a value. -/
def readText : Text → Option (Text × Text)
  | '"' :: '"' :: '"' :: s => do
    let (raw, rest) ← cutBlock '"' true s
    return (← unescape? true false (dropFirstBreak raw), rest)
  | '\'' :: '\'' :: '\'' :: s => do
    let (raw, rest) ← cutBlock '\'' false s
    return (← verbatim? true (dropFirstBreak raw), rest)
  | s => readLine s

end NoiseGate.Toml

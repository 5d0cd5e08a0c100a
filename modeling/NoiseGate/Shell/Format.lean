import NoiseGate.Text.Digits
import NoiseGate.Text.Utf8

/-!
# Formatted output

A format is text with escapes for bytes and places for arguments. It is used again as long as there
are arguments left.
-/

namespace NoiseGate.Shell

def isOctal (c : Char) : Bool := '0' ≤ c && c ≤ '7'

/-- The value of octal digits, as a byte. -/
def octal (digits : Text) : UInt8 :=
  (digits.foldl (fun (n : Nat) c => 8 * n + (c.toNat - 48)) 0).toUInt8

def simpleEscape? (c : Char) : Option UInt8 :=
  match c with
  | 'a' => some 7
  | 'b' => some 8
  | 'f' => some 12
  | 'n' => some 10
  | 'r' => some 13
  | 't' => some 9
  | 'v' => some 11
  | '\\' => some 92
  | _ => none

/-- Reads an escape behind its backslash. A backslash that begins none stands for itself. `leading`
says that a zero comes before the digits. -/
def readEscape (leading : Bool) (s : Text) : Bytes × Text :=
  match s with
  | [] => ([92], [])
  | c :: rest =>
    match simpleEscape? c with
    | some b => ([b], rest)
    | none =>
      let number := if leading then rest else s
      let digits := (number.take 3).takeWhile isOctal
      if leading && c = '0' || !leading && isOctal c then
        ([octal digits], number.drop digits.length)
      else ([92], s)

/-- Text with its escapes replaced. Each step takes a character. -/
def unescape (leading : Bool) : Nat → Text → Bytes
  | 0, _ => []
  | fuel + 1, s =>
    match s with
    | [] => []
    | '\\' :: s =>
      let (bytes, s) := readEscape leading s
      bytes ++ unescape leading fuel s
    | c :: s => Utf8.encodeChar c ++ unescape leading fuel s

/-- The integer that an argument begins with. -/
def integerText (argument : Text) : Bytes :=
  let (sign, digits) := match argument with
    | '-' :: rest => (ascii "-", rest)
    | '+' :: rest => ([], rest)
    | _ => ([], argument)
  let n := digitsValue (Utf8.encode (digits.takeWhile Char.isDigit))
  (if n = 0 then [] else sign) ++ decimal n

/-- Fills one place. -/
def place? (directive : Char) (argument : Text) : Option Bytes :=
  match directive with
  | 's' => some (Utf8.encode argument)
  | 'd' => some (integerText argument)
  | 'i' => some (integerText argument)
  | 'u' => some (integerText argument)
  | 'c' => some (Utf8.encode (argument.take 1))
  | 'b' => some (unescape true (argument.length + 1) argument)
  | _ => none

/-- Uses a format once and gives the arguments that are left. An invalid directive ends it. -/
def formatOnce : Nat → Text → List Text → Option Bytes × List Text
  | 0, _, arguments => (some [], arguments)
  | fuel + 1, s, arguments =>
    match s with
    | [] => (some [], arguments)
    | '%' :: '%' :: s =>
      let (bytes, left) := formatOnce fuel s arguments
      (bytes.map (37 :: ·), left)
    | '%' :: d :: s =>
      match place? d (arguments.headD []) with
      | none => (none, arguments)
      | some text =>
        let (bytes, left) := formatOnce fuel s arguments.tail
        (bytes.map (text ++ ·), left)
    | '\\' :: s =>
      let (text, s) := readEscape false s
      let (bytes, left) := formatOnce fuel s arguments
      (bytes.map (text ++ ·), left)
    | c :: s =>
      let (bytes, left) := formatOnce fuel s arguments
      (bytes.map (Utf8.encodeChar c ++ ·), left)

/-- Uses a format until no arguments are left, or none are used. -/
def formatAll (format : Text) : Nat → List Text → Option Bytes
  | 0, _ => some []
  | fuel + 1, arguments =>
    match formatOnce (format.length + 1) format arguments with
    | (none, _) => none
    | (some bytes, left) =>
      if left.isEmpty || left.length = arguments.length then some bytes
      else (formatAll format fuel left).map (bytes ++ ·)

def format? (format : Text) (arguments : List Text) : Option Bytes :=
  formatAll format (arguments.length + 1) arguments

end NoiseGate.Shell

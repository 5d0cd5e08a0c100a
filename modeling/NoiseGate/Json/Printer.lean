import NoiseGate.Decimal.Shortest
import NoiseGate.Json.Value

/-!
# Printing JSON

A value is printed without spaces. In strings, quotes, backslashes and control characters are
escaped, the most common of these by a letter.
-/

namespace NoiseGate.Json

def hexByte (n : Nat) : UInt8 := if n < 10 then (48 + n).toUInt8 else (87 + n).toUInt8

def printChar (c : Char) : Bytes :=
  if c = '"' then ascii "\\\""
  else if c = '\\' then ascii "\\\\"
  else if c.toNat = 8 then ascii "\\b"
  else if c.toNat = 12 then ascii "\\f"
  else if c = '\n' then ascii "\\n"
  else if c = '\r' then ascii "\\r"
  else if c = '\t' then ascii "\\t"
  else if c.toNat < 32 then ascii "\\u00" ++ [hexByte (c.toNat / 16), hexByte (c.toNat % 16)]
  else Utf8.encodeChar c

def printText (s : Text) : Bytes := 34 :: s.flatMap printChar ++ [34]

def Number.print : Number → Bytes
  | integer n => (if n < 0 then ascii "-" else []) ++ decimal n.natAbs
  | real negative size => realText negative size

mutual

def Value.print : Value → Bytes
  | .null => ascii "null"
  | .bool b => ascii (if b then "true" else "false")
  | .number n => n.print
  | .string s => printText s
  | .array items => 91 :: printItems items ++ [93]
  | .object members => 123 :: printMembers members ++ [125]

def printItems : List Value → Bytes
  | [] => []
  | [v] => v.print
  | v :: w :: rest => v.print ++ 44 :: printItems (w :: rest)

def printMembers : List (Text × Value) → Bytes
  | [] => []
  | [(name, v)] => printText name ++ 58 :: v.print
  | (name, v) :: w :: rest => printText name ++ 58 :: v.print ++ 44 :: printMembers (w :: rest)

end

end NoiseGate.Json

import NoiseGate.Text.Utf8

/-!
# Noise text

Noise is shown to the operator as text. Control characters, which a terminal would obey, are shown
by their escapes, except for line feeds and tabs.
-/

namespace NoiseGate

/-- The characters of category Cc. -/
def isControl (c : Char) : Bool := c.toNat < 0x20 || (0x7F ≤ c.toNat && c.toNat < 0xA0)

def escapeControl (c : Char) : List Char :=
  if c = '\r' then ['\\', 'r']
  else ['\\', 'u', '\x7b'] ++ Nat.toDigits 16 c.toNat ++ ['\x7d']

def showChar (c : Char) : List Char :=
  if isControl c && c != '\n' && c != '\t' then escapeControl c else [c]

def showText (text : List Char) : List Char := text.flatMap showChar

def noiseText (bytes : Bytes) : List Char := showText (Utf8.decodeLossy bytes)

end NoiseGate

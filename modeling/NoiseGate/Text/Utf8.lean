import NoiseGate.Bytes

/-!
# UTF-8

The decoder takes one byte at a time. It stands on the ground between characters, or inside a
character that needs more bytes. A byte that cannot continue the character ends a malformed run
and is looked at again from the ground, so that every malformed run is as long as it could have
been the beginning of a character.
-/

namespace NoiseGate.Utf8

/-- A decoded character, or nothing for a malformed run. -/
abbrev Piece := Option Char

inductive State
  | ground
  /-- `more` bytes are missing, and the next one lies between `low` and `high`. -/
  | inside (more : Nat) (low high : UInt8) (code : Nat)
  deriving DecidableEq

/-- The first byte of a character. Bounds on the second byte keep out long forms, surrogates and
codes above the last character. -/
def lead (b : UInt8) : List Piece × State :=
  if b < 0x80 then ([some (Char.ofNat b.toNat)], .ground)
  else if b < 0xC2 then ([none], .ground)
  else if b < 0xE0 then ([], .inside 1 0x80 0xBF (b.toNat - 0xC0))
  else if b < 0xF0 then
    ([], .inside 2 (if b = 0xE0 then 0xA0 else 0x80) (if b = 0xED then 0x9F else 0xBF)
      (b.toNat - 0xE0))
  else if b < 0xF5 then
    ([], .inside 3 (if b = 0xF0 then 0x90 else 0x80) (if b = 0xF4 then 0x8F else 0xBF)
      (b.toNat - 0xF0))
  else ([none], .ground)

def step : State → UInt8 → List Piece × State
  | .ground, b => lead b
  | .inside more low high code, b =>
    if low ≤ b ∧ b ≤ high then
      let code := code * 64 + (b.toNat - 0x80)
      if more ≤ 1 then ([some (Char.ofNat code)], .ground)
      else ([], .inside (more - 1) 0x80 0xBF code)
    else
      let (pieces, state) := lead b
      (none :: pieces, state)

/-- A decoder in the middle of its input, with the pieces so far, the latest first. -/
structure Decoder where
  state : State
  done : List Piece

namespace Decoder

def start : Decoder := ⟨.ground, []⟩

def push (d : Decoder) (b : UInt8) : Decoder :=
  let (pieces, state) := step d.state b
  ⟨state, pieces.reverse ++ d.done⟩

/-- The pieces of the whole input. A character that lacks bytes is a malformed run. -/
def finish (d : Decoder) : List Piece :=
  match d.state with
  | .ground => d.done.reverse
  | .inside .. => (none :: d.done).reverse

end Decoder

def pieces (bytes : Bytes) : List Piece := (bytes.foldl Decoder.push .start).finish

/-- The characters of well-formed bytes. -/
def decode? (bytes : Bytes) : Option (List Char) := (pieces bytes).mapM id

/-- The characters of any bytes, with U+FFFD for each malformed run. -/
def decodeLossy (bytes : Bytes) : List Char := (pieces bytes).map (·.getD '\uFFFD')

def encodeChar (c : Char) : Bytes :=
  let n := c.toNat
  if n < 0x80 then [n.toUInt8]
  else if n < 0x800 then [(0xC0 + n / 64).toUInt8, (0x80 + n % 64).toUInt8]
  else if n < 0x10000 then
    [(0xE0 + n / 4096).toUInt8, (0x80 + n / 64 % 64).toUInt8, (0x80 + n % 64).toUInt8]
  else
    [(0xF0 + n / 262144).toUInt8, (0x80 + n / 4096 % 64).toUInt8, (0x80 + n / 64 % 64).toUInt8,
      (0x80 + n % 64).toUInt8]

def encode (text : List Char) : Bytes := text.flatMap encodeChar

end NoiseGate.Utf8

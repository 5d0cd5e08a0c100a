import NoiseGate.Text.Digits

/-!
# Frame headers

A header is the token `Content-Length: `, one or more ASCII digits, and a separator of two line
ends. It announces a payload of as many bytes as the digits say. `Header.locate` finds the first
header of a buffer. Where there is none, `Header.deadLength` counts the leading bytes that no
continuation of the buffer can make part of a header.
-/

namespace NoiseGate

structure Header where
  start : Nat
  stop : Nat
  payload : Nat
  start_lt_stop : start < stop
  deriving DecidableEq

namespace Header

def token : Bytes := ascii "Content-Length: "

def separator : Bytes := [13, 10, 13, 10]

/-- The size of a header that spells its length with the given number of digits. -/
def sizeOf (digits : Nat) : Nat := token.length + digits + separator.length

theorem sizeOf_pos (digits : Nat) : 0 < sizeOf digits :=
  Nat.add_pos_right _ (by decide)

def size (h : Header) : Nat := h.stop - h.start

/-- Header and payload together. -/
def frameSize (h : Header) : Nat := h.size + h.payload

theorem frameSize_pos (h : Header) : 0 < h.frameSize :=
  Nat.add_pos_left (Nat.sub_pos_of_lt h.start_lt_stop) _

/-- The digits of the header that starts a buffer. A frame that cannot be counted has no header. -/
def digits? (buffer : Bytes) : Option Bytes :=
  if token.isPrefixOf buffer then
    let tail := buffer.drop token.length
    let digits := tail.takeWhile isDigit
    if !digits.isEmpty && separator.isPrefixOf (tail.drop digits.length) &&
        sizeOf digits.length + digitsValue digits ≤ wordMax then
      some digits
    else none
  else none

/-- The header that stands at a position and is spelled by these digits. -/
def spelledAt (pos : Nat) (digits : Bytes) : Header :=
  ⟨pos, pos + sizeOf digits.length, digitsValue digits, Nat.lt_add_of_pos_right (sizeOf_pos _)⟩

def locateFrom (pos : Nat) : Bytes → Option Header
  | [] => none
  | b :: rest =>
    match digits? (b :: rest) with
    | some digits => some (spelledAt pos digits)
    | none => locateFrom (pos + 1) rest

/-- The first header of a buffer. -/
def locate (buffer : Bytes) : Option Header := locateFrom 0 buffer

/-- A buffer that may be the beginning of a header: a part of the token, or the token with some
digits and a part of the separator. -/
def isStub (buffer : Bytes) : Bool :=
  if token.isPrefixOf buffer then
    let tail := (buffer.drop token.length).dropWhile isDigit
    tail.isPrefixOf separator && tail != separator
  else !buffer.isEmpty && buffer.isPrefixOf token

def deadFrom (pos : Nat) : Bytes → Nat
  | [] => pos
  | b :: rest => if isStub (b :: rest) then pos else deadFrom (pos + 1) rest

/-- The length of what precedes the first stub of a buffer without a header. -/
def deadLength (buffer : Bytes) : Nat := deadFrom 0 buffer

end Header

end NoiseGate

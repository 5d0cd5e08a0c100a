import NoiseGate.Frame.Header

/-!
# Candidates

A search for the first header looks only at the places where a token stands. Each of them is a
candidate: the bytes between the token and the next separator behind it must be digits, and their
value is gathered with a check at every step. A candidate that is no header is passed over with its
whole token. The search for the first stub takes the same steps, and where it finds nothing, the
end of the buffer may still be a part of a token.
-/

namespace NoiseGate.Header

/-- The first place of a buffer at which a word stands. -/
def place? (word : Bytes) : Bytes → Option Nat
  | [] => none
  | b :: rest => if word.isPrefixOf (b :: rest) then some 0 else (place? word rest).map (· + 1)

theorem length_pos_of_place? {word buffer : Bytes} {place : Nat}
    (h : place? word buffer = some place) : 0 < buffer.length := by
  cases buffer with
  | nil => contradiction
  | cons b rest => exact Nat.succ_pos _

/-- A number, unless it is too large to be counted. -/
def counted? (n : Nat) : Option Nat := if n ≤ wordMax then some n else none

/-- The value of a run of digits with one digit more. -/
def pushDigit? (n : Nat) (d : UInt8) : Option Nat :=
  (counted? (10 * n)).bind fun tens => counted? (tens + digitValue d)

/-- The length that some bytes give, if they are digits and it can be counted. -/
def length? (bytes : Bytes) : Option Nat :=
  if bytes.isEmpty || !bytes.all isDigit then none else bytes.foldlM pushDigit? 0

/-- The header of the token at a position, if what comes behind the token completes it. -/
def candidate? (pos : Nat) (tail : Bytes) : Option Header :=
  (place? separator tail).bind fun digits =>
    (length? (tail.take digits)).bind fun payload =>
      (counted? (sizeOf digits + payload)).map fun _ =>
        ⟨pos, pos + sizeOf digits, payload, Nat.lt_add_of_pos_right (sizeOf_pos digits)⟩

/-- What the first candidate gives that gives anything. -/
def firstCandidate? {α : Type} (test? : Nat → Bytes → Option α) (pos : Nat) (buffer : Bytes) :
    Option α :=
  match _ : place? token buffer with
  | none => none
  | some skipped =>
    let next := skipped + token.length
    match test? (pos + skipped) (buffer.drop next) with
    | some a => some a
    | none => firstCandidate? test? (pos + next) (buffer.drop next)
termination_by buffer.length
decreasing_by
  have := length_pos_of_place? ‹_›
  have : 0 < token.length := by decide
  simp only [List.length_drop]
  omega

/-- The first header of a buffer, found by its candidates. -/
def search (buffer : Bytes) : Option Header := firstCandidate? candidate? 0 buffer

/-- What may stand behind the token of an unfinished header. -/
def isLive (tail : Bytes) : Bool :=
  let part := tail.dropWhile isDigit
  part.length < separator.length && part.isPrefixOf separator

def live? (pos : Nat) (tail : Bytes) : Option Nat := if isLive tail then some pos else none

/-- The length of the longest part of a token, from its front, at the end of a buffer. -/
def tokenPart (buffer : Bytes) : Nat :=
  ((List.range' 1 (token.length - 1)).reverse.find? fun n => (token.take n).isSuffixOf buffer).getD 0

/-- Where the bytes begin that are kept of a buffer without a header. -/
def keptFrom (buffer : Bytes) : Nat :=
  (firstCandidate? live? 0 buffer).getD (buffer.length - tokenPart buffer)

end NoiseGate.Header

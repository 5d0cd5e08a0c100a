import NoiseGate.Stream.Arrival
import NoiseGate.Text.Blank
import NoiseGate.Text.Utf8
import NoiseGate.Text.Word

/-!
# Reading frames

A clean stream is read strictly: header lines up to a blank one, then the body. One of the lines
must give the length of the body, and the last that does so counts. Whatever goes wrong is an
error, which says what was consumed by where it leaves the stream.
-/

namespace NoiseGate

inductive ReadError
  | lineFault (cause : Fault)
  | lineNotUtf8
  | endInHeaders
  | badLength (fault : WordFault)
  | noLength
  | tooLong (length : Nat)
  | bodyFault (cause : Fault)
  | bodyCut
  deriving DecidableEq

/-- The longest body that is accepted. -/
def bodyMax : Nat := 64 * 1024 * 1024

namespace ReadError

/-- What was being done, without the cause that lies below it. -/
def context : ReadError → String
  | lineFault _ => "reading header line"
  | lineNotUtf8 => "reading header line"
  | endInHeaders => "unexpected EOF while reading headers"
  | badLength _ => "invalid Content-Length value"
  | noLength => "missing Content-Length header"
  | tooLong length => s!"Content-Length {length} exceeds maximum {bodyMax}"
  | bodyFault _ => "reading frame body"
  | bodyCut => "reading frame body"

def cause : ReadError → Option String
  | lineFault cause => some cause.message
  | lineNotUtf8 => some "stream did not contain valid UTF-8"
  | badLength fault => some fault.message
  | bodyFault cause => some cause.message
  | bodyCut => some "early eof"
  | _ => none

def message (e : ReadError) : String :=
  match e.cause with
  | some cause => e.context ++ ": " ++ cause
  | none => e.context

end ReadError

/-- Takes a line through its line feed, or up to the end of the stream. The line is gathered in
reverse behind `line`. A fault loses it. -/
def takeLine (line : Bytes) : List Signal → Except Fault Bytes × List Signal
  | [] => (.ok line.reverse, [])
  | .finish :: rest => (.ok line.reverse, rest)
  | .fault cause :: rest => (.error cause, rest)
  | .byte b :: rest => if b = 10 then (.ok (b :: line).reverse, rest) else takeLine (b :: line) rest

theorem takeLine_length_le (line : Bytes) (s : List Signal) :
    (takeLine line s).2.length ≤ s.length := by
  induction s generalizing line with
  | nil => simp [takeLine]
  | cons x rest ih =>
    cases x with
    | finish => simp [takeLine]
    | fault cause => simp [takeLine]
    | byte b =>
      have := ih (b :: line)
      simp only [takeLine, List.length_cons]
      split
      · simp
      · omega

theorem takeLine_length_lt {s : List Signal} {b : UInt8} {line : Bytes} {rest : List Signal}
    (h : takeLine [] s = (.ok (b :: line), rest)) : rest.length < s.length := by
  cases s with
  | nil => simp [takeLine] at h
  | cons x s =>
    cases x with
    | finish => simp [takeLine] at h
    | fault cause => simp [takeLine] at h
    | byte c =>
      have := takeLine_length_le [c] s
      simp only [takeLine, List.length_cons] at h ⊢
      split at h
      · simp only [Prod.mk.injEq] at h
        rw [← h.2]
        omega
      · rw [h] at this
        exact Nat.lt_succ_of_le this

/-- The value that a header line gives for the length of the body, if the line is about that. -/
def lengthField? (line : List Char) : Option (List Char) :=
  let key := line.takeWhile (· ≠ ':')
  if key.map Char.toLower = "content-length".toList && key.length < line.length then
    some (trim (line.drop (key.length + 1)))
  else none

/-- Reads header lines. `started` says whether one was read before, and `length` is the value that
the last one about the length gave. There is no length at the end of the stream. -/
def takeHeaders (started : Bool) (length : Option Nat) (s : List Signal) :
    Except ReadError (Option Nat) × List Signal :=
  match _ : takeLine [] s with
  | (.error cause, rest) => (.error (.lineFault cause), rest)
  | (.ok [], rest) => (if started then .error .endInHeaders else .ok none, rest)
  | (.ok (b :: line), rest) =>
    match Utf8.decode? (b :: line) with
    | none => (.error .lineNotUtf8, rest)
    | some text =>
      let text := trim text
      if text.isEmpty then
        match length with
        | some n => (.ok (some n), rest)
        | none => (.error .noLength, rest)
      else
        match (lengthField? text).map readWord with
        | some (.ok n) => takeHeaders true (some n) rest
        | some (.error fault) => (.error (.badLength fault), rest)
        | none => takeHeaders true length rest
termination_by s.length
decreasing_by all_goals exact takeLine_length_lt ‹_›

theorem takeHeaders_length_lt {started : Bool} {length : Option Nat} {s rest : List Signal}
    {n : Nat} (h : takeHeaders started length s = (.ok (some n), rest)) : rest.length < s.length := by
  fun_induction takeHeaders started length s with
  | case1 => simp at h
  | case2 started length s rest' hl => cases started <;> simp at h
  | case3 => simp at h
  | case4 started s b line rest' hl chars hd text hb n' =>
    simp only [Prod.mk.injEq] at h
    rw [← h.2]
    exact takeLine_length_lt hl
  | case5 => simp at h
  | case6 started length s b line rest' hl chars hd text hb n' hw ih =>
    exact Nat.lt_trans (ih h) (takeLine_length_lt hl)
  | case7 => simp at h
  | case8 started length s b line rest' hl chars hd text hb hw ih =>
    exact Nat.lt_trans (ih h) (takeLine_length_lt hl)

/-- Takes `n` bytes, gathered in reverse behind `body`. -/
def takeBody (body : Bytes) : Nat → List Signal → Except ReadError Bytes × List Signal
  | 0, s => (.ok body.reverse, s)
  | _ + 1, [] => (.error .bodyCut, [])
  | _ + 1, .finish :: rest => (.error .bodyCut, rest)
  | _ + 1, .fault cause :: rest => (.error (.bodyFault cause), rest)
  | n + 1, .byte b :: rest => takeBody (b :: body) n rest

theorem takeBody_length_le (body : Bytes) (n : Nat) (s : List Signal) :
    (takeBody body n s).2.length ≤ s.length := by
  fun_induction takeBody body n s with
  | case5 body n b rest ih => exact Nat.le_succ_of_le ih
  | _ => simp

/-- Reads one frame and gives its body, or nothing at the end of the stream. -/
def readFrame (s : List Signal) : Except ReadError (Option Bytes) × List Signal :=
  match takeHeaders false none s with
  | (.error e, rest) => (.error e, rest)
  | (.ok none, rest) => (.ok none, rest)
  | (.ok (some n), rest) =>
    if bodyMax < n then (.error (.tooLong n), rest)
    else
      match takeBody [] n rest with
      | (.ok body, rest) => (.ok (some body), rest)
      | (.error e, rest) => (.error e, rest)

theorem readFrame_length_lt {s rest : List Signal} {body : Bytes}
    (h : readFrame s = (.ok (some body), rest)) : rest.length < s.length := by
  unfold readFrame at h
  split at h
  · simp at h
  · simp at h
  · rename_i n after hh
    have hlt := takeHeaders_length_lt hh
    split at h
    · simp at h
    · have hle := takeBody_length_le [] n after
      split at h
      · rename_i hb
        simp only [Prod.mk.injEq] at h
        rw [hb] at hle
        rw [← h.2]
        exact Nat.lt_of_le_of_lt hle hlt
      · simp at h

/-- Reads frames until the end of the stream, at most `limit` times. Unless it keeps going, it
stops at the first error. -/
def readFrames (keepGoing : Bool) : Nat → List Signal → List (Except ReadError (Option Bytes))
  | 0, _ => []
  | limit + 1, s =>
    match readFrame s with
    | (.ok none, _) => [.ok none]
    | (.ok (some body), rest) => .ok (some body) :: readFrames keepGoing limit rest
    | (.error e, rest) => .error e :: if keepGoing then readFrames keepGoing limit rest else []

end NoiseGate

import NoiseGate.Frame.Reader

/-!
# Reading through a buffer

A reader asks its stream for as many bytes as its buffer holds, and takes lines and bodies out of
the buffer. A body for which the buffer is too small is read past it. A read may give fewer bytes
than were asked for, so a line or a body begins and ends anywhere in what the reads gave.
-/

namespace NoiseGate

/-- One read of at most `size` bytes. What is left of a larger arrival is read next. -/
def Arrival.readUpTo (size : Nat) : List Arrival → Except Fault Bytes × List Arrival
  | [] => (.ok [], [])
  | .fault cause :: rest => (.error cause, rest)
  | .bytes data :: rest =>
    if data.length ≤ size then (.ok data, rest)
    else (.ok (data.take size), .bytes (data.drop size) :: rest)

/-- A stream whose end has been read. Whatever a later read gives stands in `rest`. -/
def Signal.IsEnd (s rest : List Signal) : Prop := s = [] ∧ rest = [] ∨ s = .finish :: rest

structure Buffered where
  buffer : Bytes
  arrivals : List Arrival

namespace Buffered

def start (stream : List Arrival) : Buffered := ⟨[], stream⟩

/-- What is left of the stream, byte by byte. -/
def signals (b : Buffered) : List Signal :=
  b.buffer.map .byte ++ b.arrivals.flatMap Arrival.signals

/-- The bytes at hand, after a read if there were none, and the arrivals behind them. -/
def look (size : Nat) (b : Buffered) : Except Fault Bytes × List Arrival :=
  if b.buffer.isEmpty then Arrival.readUpTo size b.arrivals else (.ok b.buffer, b.arrivals)

variable {size : Nat} {b : Buffered} {rest : List Arrival}

theorem signals_of_fault {cause : Fault} (h : b.look size = (.error cause, rest)) :
    b.signals = .fault cause :: (start rest).signals := by
  match b with
  | ⟨_ :: _, arrivals⟩ => cases h
  | ⟨[], []⟩ => cases h
  | ⟨[], .fault cause :: later⟩ =>
    cases h
    rfl
  | ⟨[], .bytes data :: later⟩ =>
    simp only [look, Arrival.readUpTo, List.isEmpty_nil, if_true] at h
    split at h <;> cases h

theorem signals_of_end (hs : 0 < size) (h : b.look size = (.ok [], rest)) :
    Signal.IsEnd b.signals (start rest).signals := by
  match b with
  | ⟨_ :: _, arrivals⟩ => cases h
  | ⟨[], []⟩ =>
    cases h
    exact .inl ⟨rfl, rfl⟩
  | ⟨[], .fault cause :: later⟩ => cases h
  | ⟨[], .bytes [] :: later⟩ =>
    simp only [look, Arrival.readUpTo, List.isEmpty_nil, List.length_nil, Nat.zero_le, if_true] at h
    cases h
    exact .inr rfl
  | ⟨[], .bytes (c :: data) :: later⟩ =>
    obtain ⟨n, rfl⟩ := Nat.exists_eq_add_one.mpr hs
    simp only [look, Arrival.readUpTo, List.isEmpty_nil, if_true] at h
    split at h <;> cases h

theorem signals_of_bytes {c : UInt8} {data : Bytes} (h : b.look size = (.ok (c :: data), rest)) :
    b.signals = (c :: data).map .byte ++ (start rest).signals := by
  match b with
  | ⟨d :: more, arrivals⟩ =>
    cases h
    rfl
  | ⟨[], []⟩ => cases h
  | ⟨[], .fault cause :: later⟩ => cases h
  | ⟨[], .bytes arrived :: later⟩ =>
    simp only [look, Arrival.readUpTo, List.isEmpty_nil, if_true] at h
    split at h
    · cases h
      rfl
    · rename_i hlong
      -- some of the arrival is left, so it does not look like the end of the stream
      have hdrop : arrived.drop size ≠ [] := by
        rw [ne_eq, List.drop_eq_nil_iff]
        exact hlong
      have hdata : arrived.take size = c :: data := Except.ok.inj (Prod.mk.inj h).1
      obtain ⟨e, left, hleft⟩ := List.exists_cons_of_ne_nil hdrop
      have hwhole : arrived = c :: (data ++ e :: left) := by
        rw [← List.cons_append, ← hdata, ← hleft, List.take_append_drop]
      rw [← (Prod.mk.inj h).2, hleft, hwhole]
      simp [signals, start, Arrival.signals]

/-- Takes a line through its line feed, or up to the end of the stream, and puts it behind `line`.
A fault loses it. -/
def readLine (line : Bytes) (b : Buffered) : Except Fault Bytes × Buffered :=
  match _ : b.look readSize with
  | (.error cause, rest) => (.error cause, start rest)
  | (.ok [], rest) => (.ok line, start rest)
  | (.ok (c :: data), rest) =>
    let front := (c :: data).takeWhile (· ≠ 10)
    match (c :: data).dropWhile (· ≠ 10) with
    | [] => readLine (line ++ front) (start rest)
    | feed :: behind => (.ok (line ++ front ++ [feed]), ⟨behind, rest⟩)
termination_by b.signals.length
decreasing_by
  rename b.look readSize = _ => h
  rw [signals_of_bytes h, List.length_append, List.length_map, List.length_cons]
  omega

end Buffered

theorem takeLine_end (line : Bytes) {s rest : List Signal} (h : Signal.IsEnd s rest) :
    takeLine line s = (.ok line.reverse, rest) := by
  rcases h with ⟨rfl, rfl⟩ | rfl <;> rfl

theorem notMem_takeWhile_feed (data : Bytes) : 10 ∉ data.takeWhile (· ≠ 10) := by
  intro h
  have hall := List.all_eq_true.mp (List.all_takeWhile (p := (· ≠ 10)) (l := data)) 10 h
  contradiction

theorem takeLine_bytes (line data : Bytes) (s : List Signal) (hd : 10 ∉ data) :
    takeLine line (data.map .byte ++ s) = takeLine (data.reverse ++ line) s := by
  induction data generalizing line with
  | nil => rfl
  | cons c data ih =>
    have hc : c ≠ 10 := fun h => hd (h ▸ List.mem_cons_self)
    have hrest : 10 ∉ data := fun h => hd (List.mem_cons_of_mem c h)
    rw [List.map_cons, List.cons_append, takeLine, if_neg hc, ih _ hrest]
    simp

namespace Buffered

/-- A line is the same, whether it is taken out of a buffer or byte by byte, and so is what it
leaves. -/
theorem takeLine_signals (line : Bytes) (b : Buffered) :
    takeLine line.reverse b.signals = ((b.readLine line).1, (b.readLine line).2.signals) := by
  fun_induction readLine line b with
  | case1 line b cause rest h =>
    rw [signals_of_fault h]
    rfl
  | case2 line b rest h =>
    rw [takeLine_end _ (signals_of_end (by decide) h), List.reverse_reverse]
  | case3 line b c data rest h front hbehind ih =>
    have hfront : 10 ∉ front := notMem_takeWhile_feed (c :: data)
    have hall : c :: data = front := by
      rw [← List.takeWhile_append_dropWhile (p := (· ≠ 10)) (l := c :: data), hbehind,
        List.append_nil]
    rw [signals_of_bytes h, hall, takeLine_bytes _ _ _ hfront, ← List.reverse_append, ih]
  | case4 line b c data rest h front feed behind hbehind =>
    have hfront : 10 ∉ front := notMem_takeWhile_feed (c :: data)
    have hfeed : feed = 10 := by
      have hhead := List.head?_dropWhile_not (· ≠ 10) (c :: data)
      rw [hbehind] at hhead
      simpa using hhead
    have hall : c :: data = front ++ feed :: behind := by
      rw [← hbehind]
      exact List.takeWhile_append_dropWhile.symm
    rw [signals_of_bytes h, hall, hfeed, List.map_append, List.append_assoc,
      takeLine_bytes _ _ _ hfront]
    simp [takeLine, signals, start]

theorem takeLine_of_readLine {b later : Buffered} {result : Except Fault Bytes}
    (h : b.readLine [] = (result, later)) : takeLine [] b.signals = (result, later.signals) := by
  have hline := takeLine_signals [] b
  rwa [h] at hline

theorem signals_length_lt {b later : Buffered} {c : UInt8} {line : Bytes}
    (h : b.readLine [] = (.ok (c :: line), later)) : later.signals.length < b.signals.length :=
  takeLine_length_lt (takeLine_of_readLine h)

/-- Takes `n` bytes and puts them behind `body`. -/
def readBody (body : Bytes) (n : Nat) (b : Buffered) : Except ReadError Bytes × Buffered :=
  match n with
  | 0 => (.ok body, b)
  | n + 1 =>
    match b.look (max (n + 1) readSize) with
    | (.error cause, rest) => (.error (.bodyFault cause), start rest)
    | (.ok [], rest) => (.error .bodyCut, start rest)
    | (.ok (c :: data), rest) =>
      readBody (body ++ c :: data.take n) (n - data.length) ⟨data.drop n, rest⟩

end Buffered

/-- What a header line says to the reader. -/
inductive HeaderLine
  | blank
  | length (n : Nat)
  | other
  deriving DecidableEq

def HeaderLine.ofBytes (line : Bytes) : Except ReadError HeaderLine :=
  match Utf8.decode? line with
  | none => .error .lineNotUtf8
  | some text =>
    if (trim text).isEmpty then .ok .blank
    else
      match (lengthField? (trim text)).map readWord with
      | some (.ok n) => .ok (.length n)
      | some (.error fault) => .error (.badLength fault)
      | none => .ok .other

namespace Buffered

/-- Reads header lines, of which the last one about the length gave `length`. -/
def readHeaders (started : Bool) (length : Option Nat) (b : Buffered) :
    Except ReadError (Option Nat) × Buffered :=
  match _ : b.readLine [] with
  | (.error cause, b) => (.error (.lineFault cause), b)
  | (.ok [], b) => (if started then .error .endInHeaders else .ok none, b)
  | (.ok (c :: line), b) =>
    match HeaderLine.ofBytes (c :: line) with
    | .error e => (.error e, b)
    | .ok .blank => (length.elim (.error .noLength) (.ok ∘ some), b)
    | .ok (.length n) => readHeaders true (some n) b
    | .ok .other => readHeaders true length b
termination_by b.signals.length
decreasing_by all_goals exact signals_length_lt ‹_›

/-- Reads one frame and gives its body, or nothing at the end of the stream. -/
def readFrame (b : Buffered) : Except ReadError (Option Bytes) × Buffered :=
  match b.readHeaders false none with
  | (.error e, b) => (.error e, b)
  | (.ok none, b) => (.ok none, b)
  | (.ok (some n), b) =>
    if bodyMax < n then (.error (.tooLong n), b)
    else
      match b.readBody [] n with
      | (.ok body, b) => (.ok (some body), b)
      | (.error e, b) => (.error e, b)

/-- Reads frames until the end of the stream, at most `limit` times. Unless it keeps going, it
stops at the first error. -/
def readFrames (keepGoing : Bool) : Nat → Buffered → List (Except ReadError (Option Bytes))
  | 0, _ => []
  | limit + 1, b =>
    match b.readFrame with
    | (.ok none, _) => [.ok none]
    | (.ok (some body), b) => .ok (some body) :: readFrames keepGoing limit b
    | (.error e, b) => .error e :: if keepGoing then readFrames keepGoing limit b else []

end Buffered

end NoiseGate

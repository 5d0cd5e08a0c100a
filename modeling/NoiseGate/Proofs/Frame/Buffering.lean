import NoiseGate.Frame.Buffered

/-!
# The buffer does not show

A reader behind a buffer gives what the reader of single bytes gives, and leaves the same bytes
behind. This holds of a line, of a header block, of a body, of a frame, and of all reads in turn,
whatever the stream is and wherever it ends or fails.
-/

namespace NoiseGate

variable {s rest : List Signal}

theorem takeBody_end (body : Bytes) (n : Nat) (h : Signal.IsEnd s rest) :
    takeBody body (n + 1) s = (.error .bodyCut, rest) := by
  rcases h with ⟨rfl, rfl⟩ | rfl <;> rfl

theorem takeBody_bytes (body data : Bytes) (n : Nat) :
    takeBody body n (data.map .byte ++ s) =
      takeBody ((data.take n).reverse ++ body) (n - data.length) ((data.drop n).map .byte ++ s) := by
  induction data generalizing body n with
  | nil => simp
  | cons c data ih =>
    cases n with
    | zero => simp
    | succ n =>
      have hrest := ih (c :: body) n
      rw [List.map_cons, List.cons_append, takeBody, hrest]
      simp

theorem takeHeaders_of_fault (started : Bool) (length : Option Nat) {cause : Fault}
    (h : takeLine [] s = (.error cause, rest)) :
    takeHeaders started length s = (.error (.lineFault cause), rest) := by
  rw [takeHeaders]
  split <;> rename_i hline <;> rw [h] at hline <;> cases hline
  rfl

theorem takeHeaders_of_end (started : Bool) (length : Option Nat) (h : takeLine [] s = (.ok [], rest)) :
    takeHeaders started length s =
      (if started then .error .endInHeaders else .ok none, rest) := by
  rw [takeHeaders]
  split <;> rename_i hline <;> rw [h] at hline <;> cases hline
  rfl

theorem takeHeaders_of_line (started : Bool) (length : Option Nat) {c : UInt8} {line : Bytes}
    (h : takeLine [] s = (.ok (c :: line), rest)) :
    takeHeaders started length s =
      match HeaderLine.ofBytes (c :: line) with
      | .error e => (.error e, rest)
      | .ok .blank => (length.elim (.error .noLength) (.ok ∘ some), rest)
      | .ok (.length n) => takeHeaders true (some n) rest
      | .ok .other => takeHeaders true length rest := by
  rw [takeHeaders]
  split <;> rename_i hline <;> rw [h] at hline <;> cases hline
  unfold HeaderLine.ofBytes
  cases Utf8.decode? (c :: line) with
  | none => rfl
  | some text =>
    by_cases hblank : (trim text).isEmpty
    · simp only [if_pos hblank]
      cases length <;> rfl
    · simp only [if_neg hblank]
      cases (lengthField? (trim text)).map readWord with
      | none => rfl
      | some value => cases value <;> rfl

namespace Buffered

theorem takeBody_signals (body : Bytes) (n : Nat) (b : Buffered) :
    takeBody body.reverse n b.signals =
      ((b.readBody body n).1, (b.readBody body n).2.signals) := by
  fun_induction readBody body n b with
  | case1 body b =>
    rw [takeBody, List.reverse_reverse]
  | case2 body b n cause rest h =>
    rw [signals_of_fault h]
    rfl
  | case3 body b n rest h =>
    have hsize : 0 < max (n + 1) readSize := by
      rw [readSize]
      omega
    exact takeBody_end _ n (signals_of_end hsize h)
  | case4 body b n c data rest h ih =>
    have hbytes := takeBody_bytes (s := (start rest).signals) body.reverse (c :: data) (n + 1)
    rw [List.take_succ_cons, List.drop_succ_cons, List.length_cons, Nat.add_sub_add_right,
      ← List.reverse_append] at hbytes
    rw [signals_of_bytes h, hbytes, ← ih]
    rfl

theorem takeHeaders_signals (started : Bool) (length : Option Nat) (b : Buffered) :
    takeHeaders started length b.signals =
      ((b.readHeaders started length).1, (b.readHeaders started length).2.signals) := by
  fun_induction readHeaders started length b with
  | case1 started length b cause later h => exact takeHeaders_of_fault _ _ (takeLine_of_readLine h)
  | case2 started length b later h => exact takeHeaders_of_end _ _ (takeLine_of_readLine h)
  | case3 started length b c line later h e he =>
    rw [takeHeaders_of_line _ _ (takeLine_of_readLine h), he]
  | case4 started length b c line later h he =>
    rw [takeHeaders_of_line _ _ (takeLine_of_readLine h), he]
  | case5 started length b c line later h n he ih =>
    rw [takeHeaders_of_line _ _ (takeLine_of_readLine h), he]
    exact ih
  | case6 started length b c line later h he ih =>
    rw [takeHeaders_of_line _ _ (takeLine_of_readLine h), he]
    exact ih

theorem readFrame_signals (b : Buffered) :
    NoiseGate.readFrame b.signals = (b.readFrame.1, b.readFrame.2.signals) := by
  rw [NoiseGate.readFrame, takeHeaders_signals, readFrame]
  match b.readHeaders false none with
  | (.error e, later) => rfl
  | (.ok none, later) => rfl
  | (.ok (some n), later) =>
    have hbody := takeBody_signals [] n later
    rw [List.reverse_nil] at hbody
    by_cases hlong : bodyMax < n
    · simp only [if_pos hlong]
    · simp only [if_neg hlong, hbody]
      match later.readBody [] n with
      | (.ok body, behind) => rfl
      | (.error e, behind) => rfl

theorem readFrames_signals (keepGoing : Bool) (limit : Nat) (b : Buffered) :
    NoiseGate.readFrames keepGoing limit b.signals = readFrames keepGoing limit b := by
  induction limit generalizing b with
  | zero => rfl
  | succ limit ih =>
    rw [NoiseGate.readFrames, readFrame_signals, readFrames]
    match b.readFrame with
    | (.ok none, later) => rfl
    | (.ok (some body), later) => simp only [ih]
    | (.error e, later) => simp only [ih]

end Buffered

end NoiseGate

import NoiseGate.Proofs.Frame.Chunking
import NoiseGate.Proofs.Frame.Layout

/-!
# Messages come out of noise

A stream is built from frames with noise around them. Noise holds no header; it may hold tokens,
digits, separators and the beginning of a header right in front of a frame, and a payload may hold
whole frames. A sanitizer with an assembler behind it still gives exactly the frames.
-/

namespace NoiseGate

open Header Segment Sanitizer

/-- A header and the payload that it announces. -/
structure Frame where
  digits : Bytes
  payload : Bytes
  digits_ne_nil : digits ≠ []
  digits_isDigit : ∀ d ∈ digits, isDigit d = true
  digitsValue_eq : digitsValue digits = payload.length
  length_le : (token ++ digits ++ separator ++ payload).length ≤ wordMax

structure Noise where
  bytes : Bytes
  locate_eq_none : locate bytes = none

def Frame.bytes (f : Frame) : Bytes := token ++ f.digits ++ separator ++ f.payload

theorem Frame.bytes_eq (f : Frame) : f.bytes = spell f.digits ++ f.payload := rfl

theorem Frame.announces (f : Frame) : Announces f.digits := by
  refine ⟨f.digits_ne_nil, f.digits_isDigit, ?_⟩
  have hlen := f.length_le
  change (spell f.digits ++ f.payload).length ≤ wordMax at hlen
  rwa [List.length_append, spell_length, ← f.digitsValue_eq] at hlen

/-- Noise in front, and then every frame with the noise behind it. -/
def interleave (first : Noise) (parts : List (Frame × Noise)) : Bytes :=
  first.bytes ++ parts.flatMap fun part => part.1.bytes ++ part.2.bytes

theorem interleave_cons (first : Noise) (part : Frame × Noise) (parts : List (Frame × Noise)) :
    interleave first (part :: parts) =
      first.bytes ++ (spell part.1.digits ++ part.1.payload ++ interleave part.2 parts) := by
  simp only [interleave, List.flatMap_cons, Frame.bytes_eq, List.append_assoc]

namespace Sanitizer

theorem scan_interleave (first : Noise) (parts : List (Frame × Noise)) :
    let run := scan (interleave first parts)
    Assembler.empty.pushAll run.1 = (parts.map (·.1.bytes), .empty) ∧ run.2.owed = 0 ∧
      readOff noiseBytes run = first.bytes ++ parts.flatMap (·.2.bytes) := by
  induction parts generalizing first with
  | nil =>
    simp only [interleave, List.flatMap_nil, List.append_nil]
    exact scan_quiet first.bytes first.locate_eq_none
  | cons part parts ih =>
    obtain ⟨hmessages, howed, hnoise⟩ := ih part.2
    obtain ⟨hfirst, hsame, hbefore⟩ := scan_part first.bytes part.1.digits part.1.payload
      (interleave part.2 parts) first.locate_eq_none part.1.announces part.1.digitsValue_eq.symm
    rw [interleave_cons]
    refine ⟨?_, hsame.trans howed, ?_⟩
    · rw [hfirst, hmessages]
      rfl
    · rw [hbefore, hnoise, List.flatMap_cons]

/-- The messages are exactly the frames of the stream, in order and byte for byte. Nothing is owed
at the end, and what was set aside, with what is pending, is exactly the noise. -/
theorem feedAll_recovers_frames (first : Noise) (parts : List (Frame × Noise))
    (chunks : List Bytes) (h : chunks.flatten = interleave first parts) :
    let run := start.feedAll chunks
    (Assembler.empty.pushAll run.1).1 = parts.map (·.1.bytes) ∧ run.2.owed = 0 ∧
      run.1.flatMap noiseBytes ++ run.2.pending = first.bytes ++ parts.flatMap (·.2.bytes) := by
  obtain ⟨hmessages, howed, hnoise⟩ := scan_interleave first parts
  dsimp only
  rw [pushAll_feedAll, noiseBytes_feedAll, state_feedAll, h, hmessages]
  exact ⟨rfl, howed, hnoise⟩

/-- Half a header in front of a frame, a frame in its payload, and a length too large between two
frames, fed one byte at a time. -/
theorem feedAll_recovers_nested_frames :
    let first : Noise := ⟨ascii "x Content-Length: 5\r\nContent-Length: ", by decide⟩
    let outer : Frame := ⟨ascii "022", ascii "Content-Length: 1\r\n\r\n\x7b", by decide,
      List.all_eq_true.mp rfl, by decide, by decide⟩
    let between : Noise := ⟨ascii "Content-Length: 18446744073709551615\r\n\r\n", by decide⟩
    let hollow : Frame := ⟨ascii "0", [], by decide, List.all_eq_true.mp rfl, by decide, by decide⟩
    let last : Noise := ⟨ascii "1\r\n\r\nConte", by decide⟩
    let parts := [(outer, between), (hollow, last)]
    let chunks := (interleave first parts).map fun b => [b]
    let run := start.feedAll chunks
    chunks.flatten = interleave first parts ∧
      (Assembler.empty.pushAll run.1).1 = parts.map (·.1.bytes) ∧ run.2.owed = 0 ∧
      run.1.flatMap noiseBytes ++ run.2.pending = first.bytes ++ parts.flatMap (·.2.bytes) := by
  intro first outer between hollow last parts chunks
  have h : chunks.flatten = interleave first parts := List.flatMap_singleton' _
  exact ⟨h, feedAll_recovers_frames first parts chunks h⟩

end Sanitizer

end NoiseGate

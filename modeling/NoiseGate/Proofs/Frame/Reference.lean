import NoiseGate.Proofs.Frame.Chunking
import NoiseGate.Proofs.Frame.Layout

/-!
# Search over the whole stream

The reference keeps the whole stream, finds its first header, takes the slice of the frame as far
as the stream goes, and searches on behind it. A run over any chunks of the stream passes on the
bytes of these slices, its messages are the full slices, and it owes what the last slice lacks.
-/

namespace NoiseGate

open Header Segment Sanitizer

/-- A part of a stream, and the size of the frame that it is or begins. -/
structure Slice where
  bytes : Bytes
  size : Nat
  deriving DecidableEq

namespace Slice

def isFull (s : Slice) : Bool := s.bytes.length == s.size

def lacking (reference : List Slice) : Nat :=
  match reference.getLast? with
  | some last => if last.bytes.length < last.size then last.size - last.bytes.length else 0
  | none => 0

theorem lacking_cons_of_full (s : Slice) (reference : List Slice)
    (hs : s.bytes.length = s.size) : lacking (s :: reference) = lacking reference := by
  cases reference with
  | nil => simp [lacking, hs]
  | cons s' reference => simp only [lacking, List.getLast?_cons_cons]

end Slice

/-- The slices of a stream, found by search over all of it. -/
def slices (stream : Bytes) : List Slice :=
  match _ : locate stream with
  | none => []
  | some h =>
    let stop := min (h.start + h.frameSize) stream.length
    ⟨(stream.take stop).drop h.start, h.frameSize⟩ :: slices (stream.drop stop)
termination_by stream.length
decreasing_by
  rename locate stream = some h => hl
  have hs := start_lt_of_locate stream h hl
  have hf := h.frameSize_pos
  simp only [List.length_drop]
  omega

theorem slices_of_none (stream : Bytes) (hn : locate stream = none) : slices stream = [] := by
  rw [slices]
  split
  · rfl
  · rename_i h hl
    rw [hn] at hl
    contradiction

theorem slices_of_some (stream : Bytes) (h : Header) (hl : locate stream = some h) :
    slices stream = ⟨(stream.drop h.start).take h.frameSize, h.frameSize⟩ ::
      slices ((stream.drop h.start).drop h.frameSize) := by
  have htake : stream.take (min (h.start + h.frameSize) stream.length) =
      stream.take (h.start + h.frameSize) := List.take_eq_take_min.symm
  have hdrop : stream.drop (min (h.start + h.frameSize) stream.length) =
      stream.drop (h.start + h.frameSize) := by
    by_cases hle : h.start + h.frameSize ≤ stream.length
    · rw [Nat.min_eq_left hle]
    · have hge := Nat.le_of_not_le hle
      rw [Nat.min_eq_right hge, List.drop_length, List.drop_of_length_le hge]
  rw [slices]
  split
  · rename_i hn
    rw [hn] at hl
    contradiction
  · rename_i h' hl'
    rw [hl] at hl'
    cases hl'
    simp only [htake, hdrop, List.drop_take, List.drop_drop, Nat.add_sub_cancel_left]

theorem slices_cut (noise digits payload : Bytes) (hn : locate noise = none) (ha : Announces digits)
    (hp : payload.length < digitsValue digits) :
    slices (noise ++ (spell digits ++ payload)) =
      [⟨spell digits ++ payload, Header.sizeOf digits.length + digitsValue digits⟩] := by
  have hl := locate_append_spell noise digits payload hn ha
  have hle : (spell digits ++ payload).length ≤
      Header.sizeOf digits.length + digitsValue digits := by
    rw [List.length_append, spell_length]
    omega
  rw [slices_of_some _ _ hl, spelledAt_start, spelledAt_frameSize, List.drop_left,
    List.take_of_length_le hle, List.drop_of_length_le hle, slices_of_none [] locate_nil]

theorem slices_message (noise digits payload rest : Bytes) (hn : locate noise = none)
    (ha : Announces digits) (hp : payload.length = digitsValue digits) :
    slices (noise ++ (spell digits ++ payload ++ rest)) =
      ⟨spell digits ++ payload, Header.sizeOf digits.length + digitsValue digits⟩ ::
        slices rest := by
  have hl := locate_append_spell noise digits (payload ++ rest) hn ha
  have hlen : (spell digits ++ payload).length =
      Header.sizeOf digits.length + digitsValue digits := by
    rw [List.length_append, spell_length, hp]
  rw [← List.append_assoc (spell digits)] at hl
  rw [slices_of_some _ _ hl, spelledAt_start, spelledAt_frameSize, List.drop_left,
    List.take_left' hlen, List.drop_left' hlen]

namespace Sanitizer

theorem scan_frameBytes (stream : Bytes) :
    (scan stream).1.flatMap frameBytes = (slices stream).flatMap Slice.bytes := by
  induction Layout.of_bytes stream with
  | quiet noise hn =>
    rw [scan_of_none noise hn, slices_of_none noise hn, frameBytes_noiseRun]
    rfl
  | cut noise digits payload hn ha hp =>
    rw [scan_cut noise digits payload hn ha hp, slices_cut noise digits payload hn ha hp,
      List.flatMap_append, frameBytes_noiseRun]
    rfl
  | message noise digits payload rest hn ha hp hr ih =>
    rw [scan_message noise digits payload rest hn ha hp,
      slices_message noise digits payload rest hn ha hp, prepend_fst, List.flatMap_append,
      List.flatMap_append, frameBytes_noiseRun, ih]
    simp [frameBytes]

theorem scan_messages (stream : Bytes) :
    (Assembler.empty.pushAll (scan stream).1).1 =
      ((slices stream).filter Slice.isFull).map Slice.bytes := by
  induction Layout.of_bytes stream with
  | quiet noise hn =>
    rw [scan_of_none noise hn, slices_of_none noise hn, Assembler.pushAll_noiseRun]
    rfl
  | cut noise digits payload hn ha hp =>
    have hcut : Slice.isFull
        ⟨spell digits ++ payload, Header.sizeOf digits.length + digitsValue digits⟩ = false := by
      simp only [Slice.isFull, beq_eq_false_iff_ne, List.length_append, spell_length]
      omega
    rw [scan_cut noise digits payload hn ha hp, slices_cut noise digits payload hn ha hp,
      Assembler.pushAll_noiseRun_append, List.filter_cons_of_neg (by rw [hcut]; decide)]
    rfl
  | message noise digits payload rest hn ha hp hr ih =>
    have hfull : Slice.isFull
        ⟨spell digits ++ payload, Header.sizeOf digits.length + digitsValue digits⟩ = true := by
      simp only [Slice.isFull, beq_iff_eq, List.length_append, spell_length, hp]
    rw [scan_message noise digits payload rest hn ha hp,
      slices_message noise digits payload rest hn ha hp, prepend_fst, List.append_assoc,
      Assembler.pushAll_noiseRun_append, List.singleton_append, Assembler.pushAll_end,
      List.filter_cons_of_pos hfull, List.map_cons, ih]
    rfl

theorem scan_owed (stream : Bytes) : (scan stream).2.owed = Slice.lacking (slices stream) := by
  induction Layout.of_bytes stream with
  | quiet noise hn =>
    rw [scan_of_none noise hn, slices_of_none noise hn]
    rfl
  | cut noise digits payload hn ha hp =>
    rw [scan_cut noise digits payload hn ha hp, slices_cut noise digits payload hn ha hp]
    simp [Slice.lacking, owed, hp, Nat.add_sub_add_left]
  | message noise digits payload rest hn ha hp hr ih =>
    rw [scan_message noise digits payload rest hn ha hp,
      slices_message noise digits payload rest hn ha hp, prepend_snd, ih]
    refine (Slice.lacking_cons_of_full _ _ ?_).symm
    rw [List.length_append, spell_length, hp]

/-- A run over the chunks of a stream gives what the search over the whole stream finds. -/
theorem feedAll_refines_slices (chunks : List Bytes) :
    let run := start.feedAll chunks
    let reference := slices chunks.flatten
    run.1.flatMap frameBytes = reference.flatMap Slice.bytes ∧
      (Assembler.empty.pushAll run.1).1 = (reference.filter Slice.isFull).map Slice.bytes ∧
      run.2.owed = Slice.lacking reference := by
  dsimp only
  rw [frameBytes_feedAll, pushAll_feedAll, state_feedAll]
  exact ⟨scan_frameBytes _, scan_messages _, scan_owed _⟩

end Sanitizer

end NoiseGate

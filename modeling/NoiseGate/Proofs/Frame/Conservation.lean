import NoiseGate.Proofs.Frame.Layout

/-!
# Conservation of bytes

The bytes of all segments, in the order in which they are given, and then the pending bytes are the
bytes that were fed. This holds of a scan, of one chunk in any state, and of every run.
-/

namespace NoiseGate.Sanitizer

open Header Segment

theorem scan_bytes (buffer : Bytes) : readOff Segment.bytes (scan buffer) = buffer := by
  induction Layout.of_bytes buffer with
  | quiet noise hn => exact readOff_scan_of_none _ (fun _ => rfl) noise hn
  | cut noise digits payload hn ha hp =>
    rw [scan_cut noise digits payload hn ha hp, readOff, List.flatMap_append,
      flatMap_noiseRun _ fun _ => rfl]
    simp [Segment.bytes, pending]
  | message noise digits payload rest hn ha hp hr ih =>
    rw [readOff_scan_message _ (fun _ => rfl) noise digits payload rest hn ha hp, ih]
    simp [Segment.bytes]

theorem feed_bytes (s : Sanitizer) (chunk : Bytes) :
    readOff Segment.bytes (s.feed chunk) = s.pending ++ chunk := by
  by_cases hc : chunk = []
  · subst chunk
    simp [readOff]
  cases s with
  | scanning held => rw [feed_scanning held chunk hc, scan_bytes, pending]
  | waiting owed ho =>
    by_cases hle : owed ≤ chunk.length
    · rw [feed_waiting_of_le owed ho chunk hle, readOff_prepend, scan_bytes]
      simp [Segment.bytes, pending]
    · rw [feed_waiting_of_lt owed ho chunk hc (Nat.lt_of_not_le hle)]
      simp [readOff, Segment.bytes, pending]

theorem pending_feed_length_le (s : Sanitizer) (chunk : Bytes) :
    (s.feed chunk).2.pending.length ≤ s.pending.length + chunk.length := by
  have hbytes := congrArg List.length (feed_bytes s chunk)
  rw [readOff, List.length_append, List.length_append] at hbytes
  omega

theorem feedAll_bytes (s : Sanitizer) (chunks : List Bytes) :
    readOff Segment.bytes (s.feedAll chunks) = s.pending ++ chunks.flatten := by
  induction chunks generalizing s with
  | nil => simp [readOff]
  | cons chunk chunks ih =>
    have hchunk := feed_bytes s chunk
    rw [readOff] at hchunk
    rw [feedAll_cons, readOff_prepend, ih, List.flatten_cons, ← List.append_assoc, hchunk,
      List.append_assoc]

theorem feedAll_append (s : Sanitizer) (chunks later : List Bytes) :
    s.feedAll (chunks ++ later) =
      prepend (s.feedAll chunks).1 ((s.feedAll chunks).2.feedAll later) := by
  induction chunks generalizing s with
  | nil => rfl
  | cons chunk chunks ih =>
    rw [List.cons_append, feedAll_cons, feedAll_cons, ih, prepend_prepend]
    rfl

/-- Every call conserves the bytes it is given and those that were pending, in order and in either
state; so, after the calls made so far, whatever calls are still to come, the bytes of the
segments given so far and then the pending bytes are the bytes fed so far. -/
theorem feedAll_conserves_bytes :
    (∀ (s : Sanitizer) (chunk : Bytes),
      (s.feed chunk).1.flatMap Segment.bytes ++ (s.feed chunk).2.pending = s.pending ++ chunk) ∧
    ∀ fed later : List Bytes,
      let soFar := start.feedAll fed
      (start.feedAll (fed ++ later)).1 = soFar.1 ++ (soFar.2.feedAll later).1 ∧
        soFar.1.flatMap Segment.bytes ++ soFar.2.pending = fed.flatten := by
  refine ⟨feed_bytes, fun fed later => ⟨?_, ?_⟩⟩
  · rw [feedAll_append]
    rfl
  · exact feedAll_bytes start fed

end NoiseGate.Sanitizer

import NoiseGate.Frame.Sanitizer
import NoiseGate.Proofs.Frame.Trimming

/-!
# What one chunk does

A chunk that arrives while a payload is owed either falls short of it or fills it, and then the
rest is scanned. To scan a buffer with a header is to set the noise in front of it aside and to
owe the whole frame. A run takes its chunks one by one, each in the state that the last one left.
-/

namespace NoiseGate.Sanitizer

open Header Segment

def prepend (first : List Segment) (run : List Segment × Sanitizer) : List Segment × Sanitizer :=
  (first ++ run.1, run.2)

@[simp] theorem prepend_fst (first : List Segment) (run : List Segment × Sanitizer) :
    (prepend first run).1 = first ++ run.1 := rfl

@[simp] theorem prepend_snd (first : List Segment) (run : List Segment × Sanitizer) :
    (prepend first run).2 = run.2 := rfl

@[simp] theorem prepend_nil (run : List Segment × Sanitizer) : prepend [] run = run := rfl

theorem prepend_prepend (first second : List Segment) (run : List Segment × Sanitizer) :
    prepend first (prepend second run) = prepend (first ++ second) run := by
  simp only [prepend, List.append_assoc]

@[simp] theorem feed_nil (s : Sanitizer) : s.feed [] = ([], s) := by
  cases s <;> rfl

theorem feed_scanning (pending chunk : Bytes) (hc : chunk ≠ []) :
    (scanning pending).feed chunk = scan (pending ++ chunk) := by
  cases chunk with
  | nil => contradiction
  | cons b chunk => rfl

theorem feed_waiting_of_lt (owed : Nat) (ho : 0 < owed) (chunk : Bytes) (hc : chunk ≠ [])
    (hlt : chunk.length < owed) :
    (waiting owed ho).feed chunk =
      ([frame chunk false], waiting (owed - chunk.length) (Nat.sub_pos_of_lt hlt)) := by
  cases chunk with
  | nil => contradiction
  | cons b chunk => simp only [feed, hlt, dite_true]

theorem feed_waiting_append (owed : Nat) (ho : 0 < owed) (tail rest : Bytes)
    (ht : tail.length = owed) :
    (waiting owed ho).feed (tail ++ rest) = prepend [frame tail true] (scan rest) := by
  cases tail with
  | nil => exact absurd ht (Nat.ne_of_lt ho)
  | cons b tail =>
    have hlen : ¬ (b :: (tail ++ rest)).length < owed := by
      simp only [List.length_cons, List.length_append] at ht ⊢
      omega
    rw [List.cons_append, feed, dif_neg hlen, ← List.cons_append, List.drop_left' ht,
      List.take_left' ht]
    rfl

theorem feed_waiting_of_le (owed : Nat) (ho : 0 < owed) (chunk : Bytes)
    (hle : owed ≤ chunk.length) :
    (waiting owed ho).feed chunk =
      prepend [frame (chunk.take owed) true] (scan (chunk.drop owed)) := by
  have ht : (chunk.take owed).length = owed := List.length_take_of_le hle
  have hf := feed_waiting_append owed ho (chunk.take owed) (chunk.drop owed) ht
  rwa [List.take_append_drop] at hf

theorem scan_of_none (buffer : Bytes) (hn : locate buffer = none) :
    scan buffer = (noiseRun (buffer.take (deadLength buffer)),
      scanning (buffer.drop (deadLength buffer))) := by
  rw [scan, hn]

theorem scan_of_some (buffer : Bytes) (h : Header) (hl : locate buffer = some h) :
    scan buffer = prepend (noiseRun (buffer.take h.start))
      ((waiting h.frameSize h.frameSize_pos).feed (buffer.drop h.start)) := by
  rw [scan, hl]
  dsimp only
  by_cases hlt : (buffer.drop h.start).length < h.frameSize
  · have hm : buffer.drop h.start ≠ [] := by
      have hs := start_lt_of_locate buffer h hl
      simpa only [ne_eq, List.drop_eq_nil_iff, Nat.not_le] using hs
    rw [dif_pos hlt, feed_waiting_of_lt _ _ _ hm hlt]
    rfl
  · rw [dif_neg hlt, feed_waiting_of_le _ _ _ (Nat.le_of_not_lt hlt)]
    rfl

theorem scan_of_short (buffer : Bytes) (h : Header) (hl : locate buffer = some h)
    (hlt : (buffer.drop h.start).length < h.frameSize) :
    scan buffer = (noiseRun (buffer.take h.start) ++ [frame (buffer.drop h.start) false],
      waiting (h.frameSize - (buffer.drop h.start).length) (Nat.sub_pos_of_lt hlt)) := by
  rw [scan, hl]
  exact dif_pos hlt

theorem scan_of_whole (buffer : Bytes) (h : Header) (hl : locate buffer = some h)
    (hle : h.frameSize ≤ (buffer.drop h.start).length) :
    scan buffer = prepend
      (noiseRun (buffer.take h.start) ++ [frame ((buffer.drop h.start).take h.frameSize) true])
      (scan ((buffer.drop h.start).drop h.frameSize)) := by
  rw [scan_of_some buffer h hl, feed_waiting_of_le _ _ _ hle, prepend_prepend]

@[simp] theorem scan_nil : scan [] = ([], scanning []) := by
  rw [scan_of_none [] locate_nil]
  rfl

@[simp] theorem feedAll_nil (s : Sanitizer) : s.feedAll [] = ([], s) := rfl

theorem feedAll_cons (s : Sanitizer) (chunk : Bytes) (chunks : List Bytes) :
    s.feedAll (chunk :: chunks) =
      prepend (s.feed chunk).1 ((s.feed chunk).2.feedAll chunks) := rfl

end NoiseGate.Sanitizer

import NoiseGate.Proofs.Frame.Merging
import NoiseGate.Proofs.Frame.Scanning

/-!
# Chunk boundaries carry no meaning

A run shows its merged segments and the state it ends in. To feed two chunks in turn shows the
same as to feed them at once, so a run over any chunks shows the same as one call with all their
bytes.
-/

namespace NoiseGate.Sanitizer

open Header Segment

/-- What a run shows, wherever its chunks were cut. -/
def outcome (run : List Segment × Sanitizer) : List Segment × Sanitizer := (merged run.1, run.2)

def resume (run : List Segment × Sanitizer) (chunk : Bytes) : List Segment × Sanitizer :=
  prepend run.1 (run.2.feed chunk)

theorem outcome_prepend_congr (first : List Segment) (run run' : List Segment × Sanitizer)
    (h : outcome run = outcome run') : outcome (prepend first run) = outcome (prepend first run') := by
  obtain ⟨hsegments, hstate⟩ := Prod.mk.inj h
  exact Prod.ext (merged_append_congr first _ _ hsegments) hstate

@[simp] theorem resume_nil (run : List Segment × Sanitizer) : resume run [] = run := by
  simp [resume, prepend]

theorem resume_prepend (first : List Segment) (run : List Segment × Sanitizer) (chunk : Bytes) :
    resume (prepend first run) chunk = prepend first (resume run chunk) := by
  rw [resume, resume, prepend_prepend]
  rfl

/-- Dead bytes may be set aside before more bytes come. -/
theorem outcome_scan_trim (buffer more : Bytes) (hn : locate buffer = none) :
    outcome (scan (buffer ++ more)) =
      outcome (prepend (noiseRun (buffer.take (deadLength buffer)))
        (scan (buffer.drop (deadLength buffer) ++ more))) := by
  have hloc := locate_append_of_none buffer more hn
  have hdead := deadLength_append buffer more
  have hlen : (buffer.take (deadLength buffer)).length = deadLength buffer :=
    List.length_take_of_le (deadLength_le buffer)
  have hsplit : buffer ++ more =
      buffer.take (deadLength buffer) ++ (buffer.drop (deadLength buffer) ++ more) := by
    rw [← List.append_assoc, List.take_append_drop]
  generalize buffer.take (deadLength buffer) = dead at hlen hsplit ⊢
  generalize buffer.drop (deadLength buffer) ++ more = live at hloc hdead hsplit ⊢
  rw [← hlen] at hloc hdead
  rw [hsplit] at hloc hdead ⊢
  cases hl : locate live with
  | none =>
    rw [hl, Option.map_none] at hloc
    rw [scan_of_none _ hloc, scan_of_none _ hl, hdead, List.take_length_add_append,
      List.drop_length_add_append]
    have hm := merged_noiseRun_append dead (live.take (deadLength live)) []
    simp only [List.append_nil] at hm
    exact Prod.ext hm rfl
  | some h =>
    rw [hl, Option.map_some] at hloc
    rw [scan_of_some _ _ hloc, scan_of_some _ _ hl]
    simp only [shift_start, shift_frameSize, List.take_length_add_append,
      List.drop_length_add_append]
    exact Prod.ext (merged_noiseRun_append dead (live.take h.start) _) rfl

theorem outcome_feed_waiting (owed : Nat) (ho : 0 < owed) (chunk more : Bytes)
    (hscan : owed ≤ chunk.length → outcome (resume (scan (chunk.drop owed)) more) =
      outcome (scan (chunk.drop owed ++ more))) :
    outcome (resume ((waiting owed ho).feed chunk) more) =
      outcome ((waiting owed ho).feed (chunk ++ more)) := by
  by_cases hc : chunk = []
  · subst chunk
    simp [resume]
  by_cases hm : more = []
  · subst more
    simp
  by_cases hle : owed ≤ chunk.length
  · have hle' : owed ≤ (chunk ++ more).length := by
      rw [List.length_append]
      omega
    rw [feed_waiting_of_le _ _ _ hle, feed_waiting_of_le _ _ _ hle', resume_prepend,
      List.take_append_of_le_length hle, List.drop_append_of_le_length hle]
    exact outcome_prepend_congr _ _ _ (hscan hle)
  · have hlt : chunk.length < owed := Nat.lt_of_not_le hle
    have hcm : chunk ++ more ≠ [] := List.append_ne_nil_of_left_ne_nil hc more
    rw [feed_waiting_of_lt _ _ _ hc hlt, resume]
    by_cases hlt' : (chunk ++ more).length < owed
    · have hmore : more.length < owed - chunk.length := by
        rw [List.length_append] at hlt'
        omega
      rw [feed_waiting_of_lt _ _ _ hm hmore, feed_waiting_of_lt _ _ _ hcm hlt']
      refine Prod.ext (merged_frame_frame chunk more false []) ?_
      simp only [outcome, prepend_snd, List.length_append, Nat.sub_sub]
    · -- the second chunk holds the end of the payload
      have hmore : owed - chunk.length ≤ more.length := by
        rw [List.length_append] at hlt'
        omega
      rw [feed_waiting_of_le _ _ _ hmore, feed_waiting_of_le _ _ _ (Nat.le_of_not_lt hlt'),
        List.take_append, List.drop_append, List.take_of_length_le (Nat.le_of_lt hlt),
        List.drop_of_length_le (Nat.le_of_lt hlt)]
      exact Prod.ext (merged_frame_frame chunk _ true _) rfl

theorem outcome_scan_append (buffer more : Bytes) :
    outcome (resume (scan buffer) more) = outcome (scan (buffer ++ more)) := by
  induction hn : buffer.length using Nat.strongRecOn generalizing buffer with
  | ind n ih =>
    by_cases hm : more = []
    · subst more
      simp
    cases hl : locate buffer with
    | none =>
      rw [scan_of_none buffer hl, resume, feed_scanning _ _ hm]
      exact (outcome_scan_trim buffer more hl).symm
    | some h =>
      have hstart := start_lt_of_locate buffer h hl
      rw [scan_of_some buffer h hl, scan_of_some _ h (locate_append_of_some buffer more h hl),
        resume_prepend, List.take_append_of_le_length (Nat.le_of_lt hstart),
        List.drop_append_of_le_length (Nat.le_of_lt hstart)]
      refine outcome_prepend_congr _ _ _ (outcome_feed_waiting _ _ _ _ fun _ => ?_)
      refine ih _ ?_ _ rfl
      have hframe := h.frameSize_pos
      simp only [List.length_drop]
      omega

theorem outcome_feed_append (s : Sanitizer) (chunk more : Bytes) :
    outcome (resume (s.feed chunk) more) = outcome (s.feed (chunk ++ more)) := by
  cases s with
  | waiting owed ho =>
    exact outcome_feed_waiting owed ho chunk more fun _ => outcome_scan_append _ more
  | scanning pending =>
    by_cases hc : chunk = []
    · subst chunk
      simp [resume]
    · have hcm : chunk ++ more ≠ [] := List.append_ne_nil_of_left_ne_nil hc more
      rw [feed_scanning _ _ hc, feed_scanning _ _ hcm, ← List.append_assoc]
      exact outcome_scan_append (pending ++ chunk) more

/-- A run over chunks shows the same as one call with all their bytes. -/
theorem outcome_feedAll (s : Sanitizer) (chunks : List Bytes) :
    outcome (s.feedAll chunks) = outcome (s.feed chunks.flatten) := by
  induction chunks generalizing s with
  | nil => simp
  | cons chunk chunks ih =>
    rw [feedAll_cons, List.flatten_cons, ← outcome_feed_append]
    exact outcome_prepend_congr _ _ _ (ih _)

theorem feed_start (stream : Bytes) : start.feed stream = scan stream := by
  by_cases hs : stream = []
  · subst stream
    rw [feed_nil, scan_nil]
    rfl
  · exact feed_scanning [] stream hs

theorem outcome_feedAll_start (chunks : List Bytes) :
    outcome (start.feedAll chunks) = outcome (scan chunks.flatten) := by
  rw [outcome_feedAll, feed_start]

theorem merged_feedAll (chunks : List Bytes) :
    merged (start.feedAll chunks).1 = merged (scan chunks.flatten).1 :=
  (Prod.mk.inj (outcome_feedAll_start chunks)).1

theorem state_feedAll (chunks : List Bytes) :
    (start.feedAll chunks).2 = (scan chunks.flatten).2 :=
  (Prod.mk.inj (outcome_feedAll_start chunks)).2

theorem pushAll_feedAll (a : Assembler) (chunks : List Bytes) :
    a.pushAll (start.feedAll chunks).1 = a.pushAll (scan chunks.flatten).1 := by
  rw [← a.pushAll_merged, merged_feedAll, a.pushAll_merged]

theorem frameBytes_feedAll (chunks : List Bytes) :
    (start.feedAll chunks).1.flatMap frameBytes = (scan chunks.flatten).1.flatMap frameBytes := by
  rw [← frameBytes_merged, merged_feedAll, frameBytes_merged]

theorem noiseBytes_feedAll (chunks : List Bytes) :
    (start.feedAll chunks).1.flatMap noiseBytes = (scan chunks.flatten).1.flatMap noiseBytes := by
  rw [← noiseBytes_merged, merged_feedAll, noiseBytes_merged]

/-- However a stream is cut, a fresh sanitizer ends in the same state and with the same leftover,
the assembler behind it has given the same messages and holds the same bytes, and the segments are
the same once they are merged. -/
theorem feedAll_chunk_independent (chunks chunks' : List Bytes)
    (h : chunks.flatten = chunks'.flatten) :
    let run := start.feedAll chunks
    let run' := start.feedAll chunks'
    run.2 = run'.2 ∧ run.2.owed = run'.2.owed ∧ run.2.pending = run'.2.pending ∧
      run.2.leftover = run'.2.leftover ∧
      Assembler.empty.pushAll run.1 = Assembler.empty.pushAll run'.1 ∧
      merged run.1 = merged run'.1 := by
  have hstate : (start.feedAll chunks).2 = (start.feedAll chunks').2 := by
    rw [state_feedAll, state_feedAll, h]
  refine ⟨hstate, congrArg owed hstate, congrArg pending hstate, congrArg leftover hstate, ?_, ?_⟩
  · rw [pushAll_feedAll, pushAll_feedAll, h]
  · rw [merged_feedAll, merged_feedAll, h]

/-- A frame that is cut inside its token, its digits, its separator and its payload, and the same
bytes in one piece. -/
theorem feedAll_chunk_independent_cuts :
    let chunks := [ascii "no Conte", [], ascii "nt-Length: 0", ascii "2\r\n", ascii "\r\no",
      ascii "kContent-Length: 12\r\n"]
    let chunks' := [ascii "no Content-Length: 02\r\n\r\nokContent-Length: 12\r\n"]
    let run := start.feedAll chunks
    let run' := start.feedAll chunks'
    chunks.flatten = chunks'.flatten ∧ run.2 = run'.2 ∧ run.2.owed = run'.2.owed ∧
      run.2.pending = run'.2.pending ∧ run.2.leftover = run'.2.leftover ∧
      Assembler.empty.pushAll run.1 = Assembler.empty.pushAll run'.1 ∧
      merged run.1 = merged run'.1 :=
  ⟨by decide, feedAll_chunk_independent _ _ (by decide)⟩

end NoiseGate.Sanitizer

import NoiseGate.Proofs.Frame.Bounds
import NoiseGate.Proofs.Frame.Conservation
import NoiseGate.Proofs.Frame.Invariant

/-!
# The sanitizer never traps

A header that is found stands inside the buffer, and its frame can be counted. So every cut of a
scan is in bounds, every number is a word, and each round that goes on takes at least the smallest
frame out of the buffer. A guarded sanitizer does what the sanitizer does, from every state it can
get into and as long as a chunk fits behind the pending bytes; it never waits for nothing.
-/

namespace NoiseGate.Guarded

open Segment

theorem frameSize_eq (buffer : Bytes) (h : Header) (hl : Header.locate buffer = some h) :
    h.found.frameSize = pure h.frameSize := by
  have hsize : h.found.stop - h.found.start + h.found.payload ≤ wordMax :=
    (Header.frameSize_bounds buffer h hl).2
  have hordered : h.found.start ≤ h.found.stop := Nat.le_of_lt h.start_lt_stop
  rw [Found.frameSize, sub_eq _ _ hordered, pure_bind]
  exact add_eq _ _ hsize

theorem nonzero?_sub (m n : Nat) : nonzero? (m - n) = if n < m then some (m - n) else none := by
  unfold nonzero?
  by_cases hlt : n < m
  · rw [if_pos hlt, if_neg (Nat.sub_ne_zero_of_lt hlt)]
  · rw [if_neg hlt, if_pos (Nat.sub_eq_zero_of_le (Nat.le_of_not_lt hlt))]

theorem minus?_nonzero? (m n : Nat) :
    (minus? m n).bind nonzero? = if n < m then some (m - n) else none := by
  unfold minus?
  split
  · exact nonzero?_sub m n
  · rename_i hle
    rw [if_neg (fun hlt => hle (Nat.le_of_lt hlt))]
    rfl

variable (given : List Segment) (buffer : Bytes)

theorem scanRound_of_none (hlen : buffer.length ≤ wordMax) (hn : Header.locate buffer = none) :
    scanRound (given, buffer) =
      pure (.done (given ++ (Sanitizer.scan buffer).1, (Sanitizer.scan buffer).2.phase)) := by
  rw [scanRound, locate_eq buffer hlen, hn, pure_bind, Sanitizer.scan_of_none buffer hn]
  dsimp only [Option.map_none]
  rw [deadLength_eq buffer hlen, pure_bind, cut_eq _ _ (Header.deadLength_le buffer), pure_bind]
  rfl

theorem scanRound_of_some (h : Header) (hlen : buffer.length ≤ wordMax)
    (hl : Header.locate buffer = some h) : scanRound (given, buffer) =
      let message := buffer.drop h.start
      let given := given ++ noiseRun (buffer.take h.start)
      if message.length < h.frameSize then
        pure (.done (given ++ [.frame message false], .waiting (h.frameSize - message.length)))
      else pure (.again (given ++ [.frame (message.take h.frameSize) true],
        message.drop h.frameSize)) := by
  have hstart : h.found.start ≤ buffer.length :=
    Nat.le_of_lt (Header.start_lt_of_locate buffer h hl)
  have hsize : (buffer.drop h.start).length ≤ wordMax := by
    rw [List.length_drop]
    omega
  rw [scanRound, locate_eq buffer hlen, hl, pure_bind]
  dsimp only [Option.map_some]
  rw [cut_eq buffer _ hstart, pure_bind, frameSize_eq buffer h hl, pure_bind]
  dsimp only [Header.found]
  rw [size_eq _ hsize, pure_bind, nonzero?_sub]
  by_cases hlt : (buffer.drop h.start).length < h.frameSize
  · rw [if_pos hlt, if_pos hlt]
  · rw [if_neg hlt, if_neg hlt]
    dsimp only
    rw [cut_eq _ _ (Nat.le_of_not_lt hlt), pure_bind]

theorem scanRound_again {next : List Segment} {rest : Bytes} (hlen : buffer.length ≤ wordMax)
    (h : scanRound (given, buffer) = pure (.again (next, rest))) :
    rest.length + Header.sizeOf 1 ≤ buffer.length := by
  cases hl : Header.locate buffer with
  | none =>
    rw [scanRound_of_none given buffer hlen hl] at h
    cases pure_inj h
  | some header =>
    obtain ⟨hsize, _⟩ := Header.frameSize_bounds buffer header hl
    rw [scanRound_of_some given buffer header hlen hl] at h
    dsimp only at h
    split at h
    · cases pure_inj h
    · rename_i hle
      cases pure_inj h
      simp only [List.length_drop] at hle ⊢
      omega

theorem scan_eq (hlen : buffer.length ≤ wordMax) : scan given buffer =
    pure (given ++ (Sanitizer.scan buffer).1, (Sanitizer.scan buffer).2.phase) := by
  apply loop_eq _ _ _ scanRound (·.2.length ≤ wordMax)
    (fun state => (state.1 ++ (Sanitizer.scan state.2).1, (Sanitizer.scan state.2).2.phase)) _
    (given, buffer) hlen
  intro state hlen
  obtain ⟨given, buffer⟩ := state
  dsimp only at hlen ⊢
  cases hl : Header.locate buffer with
  | none => exact .inl (scanRound_of_none given buffer hlen hl)
  | some h =>
    have hround := scanRound_of_some given buffer h hlen hl
    dsimp only at hround
    by_cases hlt : (buffer.drop h.start).length < h.frameSize
    · rw [if_pos hlt] at hround
      rw [Sanitizer.scan_of_short buffer h hl hlt, ← List.append_assoc]
      exact .inl hround
    · rw [if_neg hlt] at hround
      have hless := scanRound_again given buffer hlen hround
      have hshort := Nat.le_trans (Nat.le_add_right _ _) (Nat.le_trans hless hlen)
      refine .inr ⟨_, hround, hshort, hless, ?_⟩
      rw [Sanitizer.scan_of_whole buffer h hl (Nat.le_of_not_lt hlt)]
      simp only [Sanitizer.prepend, List.append_assoc]

theorem feed_eq (s : Sanitizer) (chunk : Bytes)
    (hroom : s.pending.length + chunk.length ≤ wordMax) :
    feed s.phase chunk = pure ((s.feed chunk).1, (s.feed chunk).2.phase) := by
  by_cases hc : chunk = []
  · subst chunk
    rw [Sanitizer.feed_nil]
    rfl
  have hne : ¬ chunk.isEmpty = true := fun he => hc (List.isEmpty_iff.mp he)
  unfold feed
  rw [if_neg hne]
  cases s with
  | scanning pending =>
    have hlen : (pending ++ chunk).length ≤ wordMax := by rwa [List.length_append]
    dsimp only [Sanitizer.phase]
    rw [join, size_eq _ hlen, pure_bind, pure_bind, scan_eq [] _ hlen,
      Sanitizer.feed_scanning pending chunk hc]
    rfl
  | waiting owed ho =>
    have hlen : chunk.length ≤ wordMax := Nat.le_trans (Nat.le_add_left _ _) hroom
    dsimp only [Sanitizer.phase]
    rw [size_eq chunk hlen, pure_bind, minus?_nonzero?]
    by_cases hlt : chunk.length < owed
    · rw [if_pos hlt, Sanitizer.feed_waiting_of_lt owed ho chunk hc hlt]
    · have hle : owed ≤ chunk.length := Nat.le_of_not_lt hlt
      have hrest : (chunk.drop owed).length ≤ wordMax := by
        rw [List.length_drop]
        omega
      rw [if_neg hlt, Sanitizer.feed_waiting_of_le owed ho chunk hle]
      dsimp only
      rw [cut_eq chunk owed hle, pure_bind, scan_eq _ _ hrest]
      rfl

/-- A guarded run does what the run does, if all its chunks fit behind what is pending first. -/
theorem feedAll_eq (s : Sanitizer) (chunks : List Bytes)
    (hroom : s.pending.length + chunks.flatten.length ≤ wordMax) :
    feedAll s.phase chunks = pure ((s.feedAll chunks).1, (s.feedAll chunks).2.phase) := by
  induction chunks generalizing s with
  | nil => rfl
  | cons chunk chunks ih =>
    rw [List.flatten_cons, List.length_append] at hroom
    have hpending := s.pending_feed_length_le chunk
    rw [feedAll, feed_eq s chunk (by omega), pure_bind]
    dsimp only
    rw [ih _ (by omega), pure_bind, Sanitizer.feedAll_cons]
    rfl

/-- In every buffer that can be counted the guarded search and the guarded scan come to an end
without a trap, with what the search and the scan give, and so does every chunk that fits behind the
pending bytes of a state that a run gets into. A state that waits is owed something, and no more
than can be counted. A round of the search that goes on gets past a whole token, and a round of the
scan that goes on takes at least the shortest header out of the buffer. -/
theorem runs_never_trap :
    (∀ buffer : Bytes, buffer.length ≤ wordMax →
      locate buffer = pure ((Header.locate buffer).map Header.found) ∧
      deadLength buffer = pure (Header.deadLength buffer) ∧
      (∀ h, Header.locate buffer = some h → h.found.frameSize = pure h.frameSize) ∧
      ∀ given, scan given buffer =
        pure (given ++ (Sanitizer.scan buffer).1, (Sanitizer.scan buffer).2.phase)) ∧
    (∀ fed : List Bytes, let s := (Sanitizer.start.feedAll fed).2
      (∀ owed, s.phase = .waiting owed → 0 < owed ∧ owed ≤ wordMax) ∧
      ∀ chunk, s.pending.length + chunk.length ≤ wordMax →
        feed s.phase chunk = pure ((s.feed chunk).1, (s.feed chunk).2.phase)) ∧
    (∀ chunks : List Bytes, chunks.flatten.length ≤ wordMax →
      feedAll (.scanning []) chunks =
        pure ((Sanitizer.start.feedAll chunks).1, (Sanitizer.start.feedAll chunks).2.phase)) ∧
    (∀ (α : Type) (test : Nat → Nat → Guarded (Option α)) (buffer : Bytes) (start behind : Nat),
      tokenRound test buffer start = pure (.again behind) →
        start + 16 ≤ behind ∧ behind ≤ buffer.length) ∧
    ∀ (given next : List Segment) (buffer rest : Bytes), buffer.length ≤ wordMax →
      scanRound (given, buffer) = pure (.again (next, rest)) →
        rest.length + 21 ≤ buffer.length := by
  refine ⟨?_, ?_, ?_, ?_, ?_⟩
  · intro buffer hlen
    exact ⟨locate_eq buffer hlen, deadLength_eq buffer hlen, frameSize_eq buffer,
      fun given => scan_eq given buffer hlen⟩
  · intro fed s
    refine ⟨?_, feed_eq s⟩
    intro owed hphase
    have hstep : Sanitizer.InStep s _ :=
      Sanitizer.feedAll_inStep .start .empty fed (.scanning [] .nothing)
    have howed := hstep.owed_le
    cases hs : s with
    | scanning pending =>
      rw [hs] at hphase
      cases hphase
    | waiting n hn =>
      rw [hs] at hphase howed
      cases hphase
      exact ⟨hn, howed⟩
  · intro chunks hroom
    exact feedAll_eq .start chunks (by rwa [Sanitizer.start, Sanitizer.pending, List.length_nil,
      Nat.zero_add])
  · intro α test buffer start behind hround
    exact tokenRound_again test buffer start behind hround
  · intro given next buffer rest hlen hround
    exact scanRound_again given buffer hlen hround

/-- A header that gives the largest length that can be counted, and a token that is no header in front
of the shortest message that there is. -/
theorem runs_never_trap_limit :
    let largest := ascii "Content-Length: 18446744073709551575\r\n\r\n"
    let nested := ascii "Content-Length: Content-Length: 0\r\n\r\n"
    let s := (Sanitizer.start.feedAll [largest]).2
    (largest.length ≤ wordMax ∧ locate largest = pure (some ⟨0, 40, 18446744073709551575⟩) ∧
      Found.frameSize ⟨0, 40, 18446744073709551575⟩ = pure 18446744073709551615) ∧
    (s.phase = .waiting 18446744073709551575 ∧ 18446744073709551575 ≤ wordMax) ∧
    (s.pending.length + nested.length ≤ wordMax ∧
      feed s.phase nested = pure ((s.feed nested).1, (s.feed nested).2.phase)) ∧
    ([largest, nested].flatten.length ≤ wordMax ∧ feedAll (.scanning []) [largest, nested] =
      pure ((Sanitizer.start.feedAll [largest, nested]).1,
        (Sanitizer.start.feedAll [largest, nested]).2.phase)) ∧
    (tokenRound (candidate nested) nested 0 = pure (.again 16) ∧ 16 ≤ nested.length) ∧
    nested.length ≤ wordMax ∧ ∃ next, scanRound ([], nested) = pure (.again (next, [])) ∧
      21 ≤ nested.length := by
  intro largest nested s
  obtain ⟨hbuffer, hstate, hrun, htoken, hscan⟩ := runs_never_trap
  have hfits : largest.length ≤ wordMax := by decide
  have hlocated : Header.locate largest = some ⟨0, 40, 18446744073709551575, by decide⟩ := by decide
  have hwaits : s = .waiting 18446744073709551575 (by decide) := by
    change ((Sanitizer.scanning []).feed largest).2 = _
    rw [Sanitizer.feed_scanning [] largest (by decide), List.nil_append,
      Sanitizer.scan_of_short largest _ hlocated (by decide)]
    rfl
  have hphase : s.phase = .waiting 18446744073709551575 := congrArg Sanitizer.phase hwaits
  have hroom : s.pending.length + nested.length ≤ wordMax := by
    rw [congrArg Sanitizer.pending hwaits]
    decide
  have hpassed : tokenRound (candidate nested) nested 0 = pure (.again 16) := rfl
  have hwhole := scanRound_of_some [] nested (Header.spelledAt 16 [48]) (by decide) (by decide)
  obtain ⟨hlocate, _, hframe, _⟩ := hbuffer largest hfits
  rw [hlocated] at hlocate
  exact ⟨⟨hfits, hlocate, hframe _ hlocated⟩, ⟨hphase, ((hstate [largest]).1 _ hphase).2⟩,
    ⟨hroom, (hstate [largest]).2 nested hroom⟩, ⟨by decide, hrun _ (by decide)⟩,
    ⟨hpassed, (htoken _ _ nested 0 16 hpassed).2⟩, by decide, _, hwhole,
    hscan [] _ nested [] (by decide) hwhole⟩

end NoiseGate.Guarded

import NoiseGate.Proofs.Frame.Reference
import NoiseGate.Proofs.Relay.Limits

/-!
# The accounts of a relay

A relay counts the messages that it completes, the bytes that it writes and those that it sets aside,
and reports what is left in the end. If neither side fails, these numbers balance against the bytes
of the source, and the output alone shows the number of messages and what the last one lacks.
-/

namespace NoiseGate

open Header Segment Arrival Sanitizer

/-- A search over the slices of a stream, without the noise between them, finds them again. -/
theorem slices_flatMap_slices (stream : Bytes) :
    slices ((slices stream).flatMap Slice.bytes) = slices stream := by
  induction Layout.of_bytes stream with
  | quiet noise hn =>
    rw [slices_of_none noise hn]
    exact slices_of_none [] locate_nil
  | cut noise digits payload hn ha hp =>
    rw [slices_cut noise digits payload hn ha hp, List.flatMap_singleton]
    exact slices_cut [] digits payload locate_nil ha hp
  | message noise digits payload rest hn ha hp hr ih =>
    rw [slices_message noise digits payload rest hn ha hp, List.flatMap_cons]
    have hfirst := slices_message [] digits payload ((slices rest).flatMap Slice.bytes)
      locate_nil ha hp
    rwa [ih] at hfirst

theorem length_le_size_of_mem_slices (stream : Bytes) :
    ∀ s ∈ slices stream, s.bytes.length ≤ s.size := by
  induction Layout.of_bytes stream with
  | quiet noise hn => simp [slices_of_none noise hn]
  | cut noise digits payload hn ha hp =>
    intro s hs
    rw [slices_cut noise digits payload hn ha hp, List.mem_singleton] at hs
    subst s
    rw [List.length_append, spell_length]
    exact Nat.add_le_add_left (Nat.le_of_lt hp) _
  | message noise digits payload rest hn ha hp hr ih =>
    intro s hs
    rw [slices_message noise digits payload rest hn ha hp, List.mem_cons] at hs
    rcases hs with rfl | hs
    · apply Nat.le_of_eq
      rw [List.length_append, spell_length, hp]
    · exact ih s hs

namespace Slice

variable {reference : List Slice} {last : Slice}

theorem lacking_of_getLast? (hl : reference.getLast? = some last)
    (hle : last.bytes.length ≤ last.size) : lacking reference = last.size - last.bytes.length := by
  simp only [lacking, hl]
  split
  · rfl
  · omega

theorem lacking_pos_iff (hle : ∀ s ∈ reference, s.bytes.length ≤ s.size) :
    0 < lacking reference ↔ ∃ last ∈ reference.getLast?, last.isFull = false := by
  cases hl : reference.getLast? with
  | none => simp [lacking, hl]
  | some last =>
    have hlast := hle last (List.mem_of_getLast? hl)
    rw [lacking_of_getLast? hl hlast]
    simp only [Option.mem_some_iff, exists_eq_left', isFull, beq_eq_false_iff_ne]
    omega

end Slice

theorem length_frameBytes_add_noiseBytes (segments : List Segment) :
    (segments.flatMap frameBytes).length + (segments.flatMap noiseBytes).length =
      (segments.flatMap Segment.bytes).length := by
  induction segments with
  | nil => rfl
  | cons s segments ih =>
    simp only [List.flatMap_cons, List.length_append]
    cases s with
    | frame data complete =>
      simp only [frameBytes, noiseBytes, Segment.bytes, List.length_nil]
      omega
    | noise run =>
      simp only [frameBytes, noiseBytes, Segment.bytes, List.length_nil]
      omega

/-- A sanitizer that owes payload holds no bytes back. -/
theorem Sanitizer.leftover_exclusive (s : Sanitizer) :
    s.leftover.pending = 0 ∨ s.leftover.missing = 0 := by
  cases s with
  | scanning held => exact .inr rfl
  | waiting owed ho => exact .inl rfl

theorem Leftover.events_by_level (l : Leftover) :
    (l.events.filter (·.level = .warn)).map Event.counts =
        (if 0 < l.missing then [[("missing", l.missing)]] else []) ∧
      (l.events.filter (·.level = .debug)).map Event.counts =
        (if 0 < l.pending then [[("bytes", l.pending)]] else []) ∧
      ∀ e ∈ l.events, e.level ≠ .info := by
  by_cases hm : l.missing = 0 <;> by_cases hp : l.pending = 0 <;>
    simp [events, hm, hp, Event.level, Event.counts, Nat.pos_iff_ne_zero]

namespace Stats

/-- The bytes counted are those that were written and set aside, and with the pending ones they are
those of the source. -/
structure Balances (stats : Stats) (source output noise : Bytes) : Prop where
  written : stats.messageBytes = output.length
  discarded : stats.noiseBytes = noise.length
  total : stats.messageBytes + stats.noiseBytes + stats.leftover.pending = source.length
  exclusive : stats.leftover.pending = 0 ∨ stats.leftover.missing = 0

/-- The output is frames without anything between them. As many are complete as were counted, and
payload is missing if the last one is cut off. -/
structure Describes (stats : Stats) (output : Bytes) : Prop where
  frames : (slices output).flatMap Slice.bytes = output
  complete : stats.messages = (slices output).countP Slice.isFull
  cut : 0 < stats.leftover.missing ↔ ∃ last ∈ (slices output).getLast?, last.isFull = false
  missing : ∀ last ∈ (slices output).getLast?,
    stats.leftover.missing = last.size - last.bytes.length

end Stats

variable (chunks : List Bytes)

def statsOf : Stats :=
  let run := start.feedAll chunks
  ⟨run.1.countP completes, (run.1.flatMap frameBytes).length, (run.1.flatMap noiseBytes).length,
    run.2.leftover⟩

theorem balances_statsOf :
    (statsOf chunks).Balances chunks.flatten ((start.feedAll chunks).1.flatMap frameBytes)
      ((start.feedAll chunks).1.flatMap noiseBytes) where
  written := rfl
  discarded := rfl
  total := by
    have hbytes := congrArg List.length (feedAll_bytes start chunks)
    rw [readOff, List.length_append, ← length_frameBytes_add_noiseBytes] at hbytes
    exact hbytes
  exclusive := leftover_exclusive _

theorem describes_statsOf :
    (statsOf chunks).Describes ((start.feedAll chunks).1.flatMap frameBytes) := by
  obtain ⟨houtput, hmessages, howed⟩ := feedAll_refines_slices chunks
  have hagain : slices ((start.feedAll chunks).1.flatMap frameBytes) = slices chunks.flatten := by
    rw [houtput, slices_flatMap_slices]
  have hle := length_le_size_of_mem_slices chunks.flatten
  have hmissing : (statsOf chunks).leftover.missing = Slice.lacking (slices chunks.flatten) := howed
  constructor
  · rw [hagain, houtput]
  · have hcount := congrArg List.length hmessages
    rw [Assembler.length_pushAll, List.length_map, ← List.countP_eq_length_filter] at hcount
    rw [hagain]
    exact hcount
  · rw [hagain, hmissing]
    exact Slice.lacking_pos_iff hle
  · intro last hlast
    rw [hagain] at hlast
    rw [hmissing]
    exact Slice.lacking_of_getLast? hlast (hle last (List.mem_of_getLast? hlast))

theorem relay_of_failure_none (stream : List Arrival) (hf : failure stream = none) :
    let run := start.feedAll (delivered stream)
    let outcome := relay stream (.new none false)
    outcome.1 = .ok (statsOf (delivered stream)) ∧
      outcome.2.outlet.written = run.1.flatMap frameBytes ∧
      outcome.2.noise.flatten = run.1.flatMap noiseBytes := by
  intro run outcome
  have hfits : (Outlet.new none false).Fits (run.1.flatMap frameBytes).length := nofun
  obtain ⟨-, hresult, hwritten, hnoise⟩ := @relay_of_fits stream _ rfl hfits
  rw [hf] at hresult
  exact ⟨hresult, hwritten, hnoise⟩

/-- If the stream does not fail and the outlet never does, the relay ends with an account that
balances and describes the output. It warns exactly if payload is missing, and notes exactly if bytes
were pending, with the numbers of the account. However the same bytes are cut into chunks, the
account, the output and the noise are the same. -/
theorem relay_accounts_for_stream (stream : List Arrival) (hf : failure stream = none) :
    let source := (delivered stream).flatten
    let outcome := relay stream (.new none false)
    let output := outcome.2.outlet.written
    let noise := outcome.2.noise.flatten
    let events := Relay.events outcome.1
    ∃ stats, outcome.1 = .ok stats ∧ stats.Balances source output noise ∧ stats.Describes output ∧
      (events.filter (·.level = .warn)).map Event.counts =
        (if 0 < stats.leftover.missing then [[("missing", stats.leftover.missing)]] else []) ∧
      (events.filter (·.level = .debug)).map Event.counts =
        (if 0 < stats.leftover.pending then [[("bytes", stats.leftover.pending)]] else []) ∧
      (∀ e ∈ events, e.level ≠ .info) ∧
      ∀ stream', failure stream' = none → (delivered stream').flatten = source →
        let outcome' := relay stream' (.new none false)
        outcome'.1 = .ok stats ∧ outcome'.2.outlet.written = output ∧
          outcome'.2.noise.flatten = noise := by
  intro source outcome output noise events
  obtain ⟨hresult, houtput, hnoise⟩ := relay_of_failure_none stream hf
  have hevents : events = (statsOf (delivered stream)).leftover.events :=
    congrArg Relay.events hresult
  obtain ⟨hwarn, hdebug, hinfo⟩ := (statsOf (delivered stream)).leftover.events_by_level
  refine ⟨statsOf (delivered stream), hresult, ?_, ?_, ?_, ?_, ?_, ?_⟩
  · rw [show output = _ from houtput, show noise = _ from hnoise]
    exact balances_statsOf _
  · rw [show output = _ from houtput]
    exact describes_statsOf _
  · rw [hevents]
    exact hwarn
  · rw [hevents]
    exact hdebug
  · rw [hevents]
    exact hinfo
  · intro stream' hf' hsame
    obtain ⟨hresult', houtput', hnoise'⟩ := relay_of_failure_none stream' hf'
    obtain ⟨hframes, hruns, hcount, hstate⟩ := feedAll_congr _ _ hsame
    refine ⟨?_, ?_, ?_⟩
    · rw [hresult']
      simp only [statsOf, hframes, hruns, hcount, hstate]
    · rw [houtput', hframes]
      exact houtput.symm
    · rw [hnoise', hruns]
      exact hnoise.symm

/-- Noise in a chunk too large for one read, a message, and the end inside a second one. -/
def unevenStream : List Arrival :=
  [.bytes (List.replicate 9000 46 ++ ascii "Content-Length: 2\r\n\r\n\x7b"),
    .bytes (ascii "\x7dContent-Length: 7\r\n\r\n[1"), .bytes []]

theorem relay_accounts_for_uneven_stream :
    failure unevenStream = none ∧
      ∃ stats, (relay unevenStream (.new none false)).1 = .ok stats ∧
        stats.Balances (delivered unevenStream).flatten
          (relay unevenStream (.new none false)).2.outlet.written
          (relay unevenStream (.new none false)).2.noise.flatten ∧
        stats.Describes (relay unevenStream (.new none false)).2.outlet.written := by
  have hf : failure unevenStream = none := rfl
  obtain ⟨stats, hresult, hbalances, hdescribes, -⟩ := relay_accounts_for_stream unevenStream hf
  exact ⟨hf, stats, hresult, hbalances, hdescribes⟩

end NoiseGate

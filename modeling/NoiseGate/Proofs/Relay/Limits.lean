import NoiseGate.Proofs.Frame.Chunking
import NoiseGate.Proofs.Relay.Running

/-!
# Relays with limited room

Whatever a stream is and wherever it ends or fails, the outlet of a relay gets message bytes up to
its limit and nothing else. The relay fails at the limit if there are more, and otherwise ends as the
stream does.
-/

namespace NoiseGate

open Segment Arrival Sanitizer

theorem feedAll_congr (chunks chunks' : List Bytes) (h : chunks.flatten = chunks'.flatten) :
    (start.feedAll chunks).1.flatMap frameBytes = (start.feedAll chunks').1.flatMap frameBytes ∧
      (start.feedAll chunks).1.flatMap noiseBytes = (start.feedAll chunks').1.flatMap noiseBytes ∧
      (start.feedAll chunks).1.countP completes = (start.feedAll chunks').1.countP completes ∧
      (start.feedAll chunks).2 = (start.feedAll chunks').2 := by
  refine ⟨?_, ?_, ?_, ?_⟩
  · rw [frameBytes_feedAll, frameBytes_feedAll, h]
  · rw [noiseBytes_feedAll, noiseBytes_feedAll, h]
  · rw [← Assembler.empty.length_pushAll, ← Assembler.empty.length_pushAll, pushAll_feedAll,
      pushAll_feedAll, h]
  · rw [state_feedAll, state_feedAll, h]

variable {stream : List Arrival} {o : Outlet}

/-- An outlet with room for all message bytes of a stream gets them all. -/
theorem relay_of_fits (hf : o.flushFails = false)
    (h : o.Fits ((start.feedAll (delivered stream)).1.flatMap frameBytes).length) :
    let run := start.feedAll (delivered stream)
    let outcome := relay stream o
    (Relay.start o).writeFault (stream.flatMap reads) = none ∧
      outcome.1 = (failure stream).elim
        (.ok ⟨run.1.countP completes, (run.1.flatMap frameBytes).length,
          (run.1.flatMap noiseBytes).length, run.2.leftover⟩) .error ∧
      outcome.2.outlet.written = o.written ++ run.1.flatMap frameBytes ∧
      outcome.2.noise.flatten = run.1.flatMap noiseBytes := by
  intro run outcome
  obtain ⟨hbytes, hfailure⟩ := reads_delivery stream
  obtain ⟨hframes, hnoise, hcount, hstate⟩ := feedAll_congr _ _ hbytes
  rw [← hframes] at h
  obtain ⟨hrun, hfault⟩ := (Relay.start o).run_of_fits _ hf h
  have houtcome : outcome = _ := hrun
  refine ⟨hfault, ?_, ?_, ?_⟩
  · rw [houtcome, Relay.stats_relayed, hframes, hnoise, hcount, hstate, hfailure]
  · rw [houtcome, ← hframes]
    rfl
  · rw [houtcome, ← hnoise]
    exact flatten_noiseRuns _

theorem relay_of_lt (hf : o.flushFails = false) {room : Nat} (hr : o.room = some room)
    (hlt : room < ((start.feedAll (delivered stream)).1.flatMap frameBytes).length) :
    let run := start.feedAll (delivered stream)
    let outcome := relay stream o
    (Relay.start o).writeFault (stream.flatMap reads) = some .brokenPipe ∧
      outcome.1 = .error .brokenPipe ∧
      outcome.2.outlet.written = o.written ++ (run.1.flatMap frameBytes).take room ∧
      outcome.2.noise.flatten <+: run.1.flatMap noiseBytes := by
  intro run outcome
  obtain ⟨hframes, hnoise, _, _⟩ := feedAll_congr _ _ (reads_delivery stream).1
  rw [← hframes] at hlt
  obtain ⟨later, hrun, hfault, hcut⟩ := (Relay.start o).run_of_lt _ room hf hr hlt
  have houtcome : outcome = _ := hrun
  refine ⟨hfault, ?_, ?_, ?_⟩
  · rw [houtcome]
  · rw [houtcome, ← hframes]
    exact hcut.written
  · rw [houtcome, ← hnoise, ← flatten_noiseRuns]
    obtain ⟨more, hmore⟩ := hcut.noise
    refine ⟨more.flatten, ?_⟩
    rw [← List.flatten_append, hmore]
    rfl

/-- The outlet gets the message bytes of what the stream delivers, as far as it has room. If they do
not fit, the relay fails because of the outlet; if they do, it fails as the stream fails, or ends and
has counted all. The noise that it gives is a part of the noise delivered, from the front, and is all
of it if the message bytes fit. -/
theorem relay_delivers_prefix (stream : List Arrival) (room : Option Nat) :
    let run := start.feedAll (delivered stream)
    let frames := run.1.flatMap frameBytes
    let noise := run.1.flatMap noiseBytes
    let full := room.any (· < frames.length)
    let fault := (Relay.start (.new room false)).writeFault (stream.flatMap reads)
    let outcome := relay stream (.new room false)
    outcome.2.outlet.written = frames.take (min (room.getD frames.length) frames.length) ∧
      fault = (if full then some .brokenPipe else none) ∧
      outcome.1 = (fault.or (failure stream)).elim
        (.ok ⟨(Assembler.empty.pushAll run.1).1.length, frames.length, noise.length, run.2.leftover⟩)
        .error ∧
      outcome.2.noise.flatten <+: noise ∧ (full = false → outcome.2.noise.flatten = noise) := by
  intro run frames noise full fault outcome
  cases hfull : full with
  | false =>
    have hfits : (Outlet.new room false).Fits frames.length := by
      intro n hn
      cases hn
      exact Nat.le_of_not_lt (of_decide_eq_false hfull)
    have hwhole : frames.length ≤ room.getD frames.length := by
      cases room with
      | none => exact Nat.le_refl _
      | some n => exact hfits n rfl
    obtain ⟨hfault, hresult, hwritten, hgiven⟩ := relay_of_fits rfl hfits
    refine ⟨?_, hfault, ?_, ?_, fun _ => hgiven⟩
    · rw [Nat.min_eq_right hwhole, List.take_length]
      exact hwritten
    · rw [show fault = none from hfault, Option.none_or, Assembler.length_pushAll]
      exact hresult
    · exact hgiven ▸ List.prefix_refl _
  | true =>
    cases room with
    | none => exact absurd hfull Bool.false_ne_true
    | some n =>
      have hlt : n < frames.length := of_decide_eq_true hfull
      have hroom : (Outlet.new (some n) false).room = some n := rfl
      obtain ⟨hfault, hresult, hwritten, hgiven⟩ := relay_of_lt rfl hroom hlt
      refine ⟨?_, hfault, ?_, hgiven, nofun⟩
      · rw [Option.getD_some, Nat.min_eq_left (Nat.le_of_lt hlt)]
        exact hwritten
      · rw [show fault = some .brokenPipe from hfault]
        exact hresult

end NoiseGate

import NoiseGate.Proofs.Frame.Conservation
import NoiseGate.Proofs.Relay.Passing

/-!
# Relays to the end

A run over a stream passes on what the sanitizer makes of the chunks that the stream delivers, if the
outlet has room for it. It then ends as the stream does. With less room it ends at the limit with the
fault of the outlet, whatever the stream would have done later.
-/

namespace NoiseGate

open Segment Arrival

theorem feedAll_singleton (s : Sanitizer) (chunk : Bytes) : s.feedAll [chunk] = s.feed chunk := by
  simp [Sanitizer.feedAll_cons, Sanitizer.prepend]

namespace Relay

def flushesFor (s : Sanitizer) : List Bytes → Nat
  | [] => 0
  | chunk :: rest => (hasFrame (s.feed chunk).1).toNat + flushesFor (s.feed chunk).2 rest

/-- The relay behind chunks all of whose segments it has passed on. -/
def relayed (r : Relay) (chunks : List Bytes) : Relay :=
  let run := r.sanitizer.feedAll chunks
  let later := r.passed run.1
  { later with
    sanitizer := run.2
    outlet := { later.outlet with flushes := r.outlet.flushes + flushesFor r.sanitizer chunks } }

theorem relayed_nil (r : Relay) : r.relayed [] = r := by
  simp [relayed, passed, flushesFor, Outlet.took_nil, Messages.noiseRuns]

theorem relayed_relayed (r : Relay) (chunk : Bytes) (chunks : List Bytes) :
    (r.relayed [chunk]).relayed chunks = r.relayed (chunk :: chunks) := by
  simp [relayed, passed, flushesFor, Sanitizer.feedAll_cons, Outlet.took, noiseRuns_append,
    Function.comp_def, Nat.sub_sub, Nat.add_assoc]

theorem relayed_sanitizer (r : Relay) (chunk : Bytes) :
    (r.relayed [chunk]).sanitizer = (r.sanitizer.feed chunk).2 := by
  simp only [relayed, feedAll_singleton]

theorem stats_relayed (o : Outlet) (chunks : List Bytes) :
    ((Relay.start o).relayed chunks).stats =
      ⟨(Sanitizer.start.feedAll chunks).1.countP completes,
        ((Sanitizer.start.feedAll chunks).1.flatMap frameBytes).length,
        ((Sanitizer.start.feedAll chunks).1.flatMap Segment.noiseBytes).length,
        (Sanitizer.start.feedAll chunks).2.leftover⟩ := by
  simp [stats, relayed, passed, Relay.start]

theorem take_eq (r : Relay) (chunk : Bytes) :
    r.take chunk =
      match pass { r with sanitizer := (r.sanitizer.feed chunk).2 } (r.sanitizer.feed chunk).1 with
      | (later, some cause) => (later, some cause)
      | (later, none) =>
        if hasFrame (r.sanitizer.feed chunk).1 then
          ({ later with outlet := later.outlet.flush.1 }, later.outlet.flush.2)
        else (later, none) := rfl

theorem take_of_fits (r : Relay) (chunk : Bytes) (hf : r.outlet.flushFails = false)
    (h : r.outlet.Fits ((r.sanitizer.feed chunk).1.flatMap frameBytes).length) :
    r.take chunk = (r.relayed [chunk], none) := by
  have hpass := pass_of_fits { r with sanitizer := (r.sanitizer.feed chunk).2 } _ h
  rw [take_eq, hpass]
  cases hframe : hasFrame (r.sanitizer.feed chunk).1 <;>
    simp [relayed, passed, flushesFor, Outlet.took, Outlet.flush, feedAll_singleton, hf, hframe]

theorem take_of_lt (r : Relay) (chunk : Bytes) (room : Nat) (hr : r.outlet.room = some room)
    (hlt : room < ((r.sanitizer.feed chunk).1.flatMap frameBytes).length) :
    ∃ later, r.take chunk = (later, some .brokenPipe) ∧
      r.Cut later (r.sanitizer.feed chunk).1 room := by
  obtain ⟨later, hpass, hcut⟩ :=
    pass_of_lt { r with sanitizer := (r.sanitizer.feed chunk).2 } _ room hr hlt
  refine ⟨later, ?_, hcut.written, hcut.noise⟩
  rw [take_eq, hpass]

def writeFault (r : Relay) : List Arrival → Option Fault
  | .bytes (b :: chunk) :: rest =>
    match r.take (b :: chunk) with
    | (_, some cause) => some cause
    | (r, none) => r.writeFault rest
  | _ => none

theorem run_of_fits (r : Relay) (stream : List Arrival) (hf : r.outlet.flushFails = false)
    (h : r.outlet.Fits ((r.sanitizer.feedAll (delivered stream)).1.flatMap frameBytes).length) :
    r.run stream = ((failure stream).elim (.ok (r.relayed (delivered stream)).stats) .error,
        r.relayed (delivered stream)) ∧ r.writeFault stream = none := by
  fun_induction delivered stream generalizing r with
  | case1 =>
    rw [relayed_nil]
    exact ⟨rfl, rfl⟩
  | case2 rest =>
    rw [relayed_nil]
    exact ⟨rfl, rfl⟩
  | case3 cause rest =>
    rw [relayed_nil]
    exact ⟨rfl, rfl⟩
  | case4 b chunk rest ih =>
    rw [Sanitizer.feedAll_cons, Sanitizer.prepend_fst, List.flatMap_append, List.length_append] at h
    have htake := r.take_of_fits (b :: chunk) hf (h.of_le (Nat.le_add_right _ _))
    have hsanitizer := r.relayed_sanitizer (b :: chunk)
    have hroom : (r.relayed [b :: chunk]).outlet.Fits
        (((r.sanitizer.feed (b :: chunk)).2.feedAll (delivered rest)).1.flatMap frameBytes).length := by
      rw [← feedAll_singleton r.sanitizer] at h
      exact h.took
    rw [← hsanitizer] at hroom
    obtain ⟨hrun, hfault⟩ := ih (r.relayed [b :: chunk]) hf hroom
    rw [relayed_relayed] at hrun
    refine ⟨?_, ?_⟩
    · rw [run, htake]
      exact hrun
    · rw [writeFault, htake]
      exact hfault

theorem run_of_lt (r : Relay) (stream : List Arrival) (room : Nat) (hf : r.outlet.flushFails = false)
    (hr : r.outlet.room = some room)
    (hlt : room < ((r.sanitizer.feedAll (delivered stream)).1.flatMap frameBytes).length) :
    ∃ later, r.run stream = (.error .brokenPipe, later) ∧ r.writeFault stream = some .brokenPipe ∧
      r.Cut later (r.sanitizer.feedAll (delivered stream)).1 room := by
  fun_induction delivered stream generalizing r room with
  | case1 => cases hlt
  | case2 rest => cases hlt
  | case3 cause rest => cases hlt
  | case4 b chunk rest ih =>
    rw [Sanitizer.feedAll_cons, Sanitizer.prepend_fst] at hlt ⊢
    rw [List.flatMap_append, List.length_append] at hlt
    by_cases hle : ((r.sanitizer.feed (b :: chunk)).1.flatMap frameBytes).length ≤ room
    · have htake := r.take_of_fits (b :: chunk) hf (r.outlet.fits_of_le hr hle)
      have hsanitizer := r.relayed_sanitizer (b :: chunk)
      have hroom : (r.relayed [b :: chunk]).outlet.room =
          some (room - ((r.sanitizer.feed (b :: chunk)).1.flatMap frameBytes).length) := by
        simp [relayed, passed, Outlet.took, hr, feedAll_singleton]
      have hrest : room - ((r.sanitizer.feed (b :: chunk)).1.flatMap frameBytes).length <
          (((r.relayed [b :: chunk]).sanitizer.feedAll (delivered rest)).1.flatMap
            frameBytes).length := by
        rw [hsanitizer]
        omega
      obtain ⟨later, hrun, hfault, hcut⟩ := ih (r.relayed [b :: chunk]) _ hf hroom hrest
      rw [hsanitizer] at hcut
      refine ⟨later, ?_, ?_, Cut.behind _ ?_ hle⟩
      · rw [run, htake]
        exact hrun
      · rw [writeFault, htake]
        exact hfault
      · rw [← feedAll_singleton r.sanitizer (b :: chunk)] at hcut ⊢
        exact ⟨hcut.written, hcut.noise⟩
    · have hfull := Nat.lt_of_not_le hle
      obtain ⟨later, htake, hcut⟩ := r.take_of_lt (b :: chunk) room hr hfull
      refine ⟨later, ?_, ?_, hcut.append hfull⟩
      · rw [run, htake]
      · rw [writeFault, htake]

end Relay

end NoiseGate

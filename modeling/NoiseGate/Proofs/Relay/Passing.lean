import NoiseGate.Messages
import NoiseGate.Proofs.Frame.Assembling
import NoiseGate.Proofs.Frame.Scanning
import NoiseGate.Proofs.Stream.Delivery
import NoiseGate.Proofs.Stream.Room

/-!
# What a relay passes on

A relay whose outlet has room for all message bytes passes on all that the sanitizer gives, and goes
on to the end of the stream. `relayed` is what has become of it by then. If the room does not suffice,
the relay stops at the byte for which there is none, with all noise in front of it given.
-/

namespace NoiseGate

open Segment Arrival

theorem noiseRuns_append (a b : List Segment) :
    Messages.noiseRuns (a ++ b) = Messages.noiseRuns a ++ Messages.noiseRuns b :=
  List.filterMap_append

theorem flatten_noiseRuns (segments : List Segment) :
    (Messages.noiseRuns segments).flatten = segments.flatMap noiseBytes := by
  induction segments with
  | nil => rfl
  | cons s segments ih =>
    cases s with
    | frame data complete => exact ih
    | noise run => exact congrArg (run ++ ·) ih

namespace Relay

def passed (r : Relay) (segments : List Segment) : Relay :=
  { r with
    outlet := r.outlet.took (segments.flatMap frameBytes)
    noise := r.noise ++ Messages.noiseRuns segments
    messages := r.messages + segments.countP completes
    messageBytes := r.messageBytes + (segments.flatMap frameBytes).length
    noiseBytes := r.noiseBytes + (segments.flatMap Segment.noiseBytes).length }

theorem passed_append (r : Relay) (a b : List Segment) :
    (r.passed a).passed b = r.passed (a ++ b) := by
  simp [passed, Outlet.took_took, noiseRuns_append, Nat.add_assoc]

theorem pass_noise (r : Relay) (run : Bytes) (rest : List Segment) :
    r.pass (.noise run :: rest) = (r.passed [.noise run]).pass rest := by
  simp [pass, passed, frameBytes, Segment.noiseBytes, completes, Messages.noiseRuns, Outlet.took_nil]

theorem pass_frame (r : Relay) (data : Bytes) (complete : Bool) (rest : List Segment)
    (h : r.outlet.Fits data.length) :
    r.pass (frame data complete :: rest) = (r.passed [frame data complete]).pass rest := by
  cases complete <;>
    simp [pass, passed, r.outlet.write_of_fits data h, frameBytes, Segment.noiseBytes, completes,
      Messages.noiseRuns]

theorem pass_of_fits (r : Relay) (segments : List Segment)
    (h : r.outlet.Fits (segments.flatMap frameBytes).length) :
    r.pass segments = (r.passed segments, none) := by
  induction segments generalizing r with
  | nil => simp [pass, passed, Outlet.took_nil, Messages.noiseRuns]
  | cons s rest ih =>
    rw [List.flatMap_cons, List.length_append] at h
    have hrest : (r.passed [s]).outlet.Fits (rest.flatMap frameBytes).length := by
      refine Outlet.Fits.took ?_
      rwa [List.flatMap_singleton]
    have hpassed := r.passed_append [s] rest
    cases s with
    | noise run =>
      rw [pass_noise, ih _ hrest, hpassed]
      rfl
    | frame data complete =>
      have hdata : r.outlet.Fits data.length := h.of_le (Nat.le_add_right _ _)
      rw [pass_frame r data complete rest hdata, ih _ hrest, hpassed]
      rfl

/-- What a relay has passed on of some segments when its outlet, with room for only so many bytes,
has failed. -/
structure Cut (r later : Relay) (segments : List Segment) (room : Nat) : Prop where
  written : later.outlet.written = r.outlet.written ++ (segments.flatMap frameBytes).take room
  noise : later.noise <+: r.noise ++ Messages.noiseRuns segments

variable {r later : Relay} {segments rest : List Segment} {room : Nat}

theorem Cut.append (h : r.Cut later segments room)
    (hlt : room < (segments.flatMap frameBytes).length) : r.Cut later (segments ++ rest) room := by
  refine ⟨?_, ?_⟩
  · rw [h.written, List.flatMap_append, List.take_append_of_le_length (Nat.le_of_lt hlt)]
  · rw [noiseRuns_append, ← List.append_assoc]
    exact h.noise.trans (List.prefix_append _ _)

theorem Cut.behind (segments : List Segment)
    (h : (r.passed segments).Cut later rest (room - (segments.flatMap frameBytes).length))
    (hle : (segments.flatMap frameBytes).length ≤ room) : r.Cut later (segments ++ rest) room := by
  refine ⟨?_, ?_⟩
  · rw [h.written, List.flatMap_append, List.take_append, List.take_of_length_le hle,
      ← List.append_assoc]
    rfl
  · rw [noiseRuns_append, ← List.append_assoc]
    exact h.noise

theorem Cut.frame (r : Relay) (data : Bytes) (complete : Bool) (rest : List Segment)
    (hlt : room < data.length) :
    r.Cut { r with outlet := r.outlet.filled (data.take room) } (.frame data complete :: rest)
      room := by
  refine ⟨?_, List.prefix_append _ _⟩
  have htake : ((Segment.frame data complete :: rest).flatMap frameBytes).take room = data.take room :=
    List.take_append_of_le_length (Nat.le_of_lt hlt)
  rw [htake]
  rfl

theorem pass_frame_of_lt (r : Relay) (data : Bytes) (complete : Bool) (rest : List Segment)
    (hr : r.outlet.room = some room) (hlt : room < data.length) :
    r.pass (.frame data complete :: rest) =
      ({ r with outlet := r.outlet.filled (data.take room) }, some .brokenPipe) := by
  rw [pass, r.outlet.write_of_lt data hr hlt]

theorem pass_of_lt (r : Relay) (segments : List Segment) (room : Nat) (hr : r.outlet.room = some room)
    (hlt : room < (segments.flatMap frameBytes).length) :
    ∃ later, r.pass segments = (later, some .brokenPipe) ∧ r.Cut later segments room := by
  induction segments generalizing r room with
  | nil => cases hlt
  | cons s rest ih =>
    rw [List.flatMap_cons, List.length_append] at hlt
    cases s with
    | noise run =>
      have hroom : (r.passed [.noise run]).outlet.room = some room := by
        simp [passed, Outlet.took, hr, frameBytes]
      obtain ⟨later, hpass, hcut⟩ := ih _ room hroom (by simpa [frameBytes] using hlt)
      refine ⟨later, ?_, ?_⟩
      · rw [pass_noise, hpass]
      · exact Cut.behind [.noise run] hcut (Nat.zero_le _)
    | frame data complete =>
      by_cases hle : data.length ≤ room
      · have hfits : r.outlet.Fits data.length := r.outlet.fits_of_le hr hle
        have hroom : (r.passed [frame data complete]).outlet.room = some (room - data.length) := by
          simp [passed, Outlet.took, hr, frameBytes]
        have hrest : room - data.length < (rest.flatMap frameBytes).length := by
          change room < data.length + _ at hlt
          omega
        obtain ⟨later, hpass, hcut⟩ := ih _ _ hroom hrest
        refine ⟨later, ?_, ?_⟩
        · rw [pass_frame r data complete rest hfits, hpass]
        · have hone : ([frame data complete].flatMap frameBytes).length = data.length := by
            rw [List.flatMap_singleton]
            rfl
          rw [← hone] at hcut hle
          exact Cut.behind [frame data complete] hcut hle
      · have hfull : room < data.length := Nat.lt_of_not_le hle
        exact ⟨_, pass_frame_of_lt r data complete rest hr hfull, .frame r data complete rest hfull⟩

end Relay

end NoiseGate

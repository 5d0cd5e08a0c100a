import NoiseGate.Proofs.Frame.Merging
import NoiseGate.Proofs.Frame.Scanning

/-!
# The layout of a stream

Read from the front, every stream is noise and a message, again and again, and ends in noise alone
or behind a message that is cut off. `scan` gives the segments of this layout and the state of its
end.
-/

namespace NoiseGate

open Header Segment Sanitizer

/-- A stream as noise and messages. -/
inductive Layout : Bytes → Prop
  | quiet (noise : Bytes) (hn : locate noise = none) : Layout noise
  | cut (noise digits payload : Bytes) (hn : locate noise = none) (ha : Announces digits)
      (hp : payload.length < digitsValue digits) : Layout (noise ++ (spell digits ++ payload))
  | message (noise digits payload rest : Bytes) (hn : locate noise = none) (ha : Announces digits)
      (hp : payload.length = digitsValue digits) (hr : Layout rest) :
      Layout (noise ++ (spell digits ++ payload ++ rest))

theorem Layout.of_bytes (stream : Bytes) : Layout stream := by
  induction hlen : stream.length using Nat.strongRecOn generalizing stream with
  | ind n ih =>
    cases hl : locate stream with
    | none => exact .quiet stream hl
    | some h =>
      obtain ⟨noise, digits, rest, rfl, hn, ha, rfl⟩ := (locate_eq_some_iff stream h).mp hl
      by_cases hlt : rest.length < digitsValue digits
      · exact .cut noise digits rest hn ha hlt
      · have hp : (rest.take (digitsValue digits)).length = digitsValue digits :=
          List.length_take_of_le (Nat.le_of_not_lt hlt)
        have hs := sizeOf_pos digits.length
        have hr : Layout (rest.drop (digitsValue digits)) := by
          refine ih _ ?_ _ rfl
          simp only [List.length_append, List.length_drop, spell_length] at hlen ⊢
          omega
        have hm := Layout.message noise digits _ _ hn ha hp hr
        rwa [List.append_assoc (spell digits), List.take_append_drop] at hm

namespace Sanitizer

theorem scan_cut (noise digits payload : Bytes) (hn : locate noise = none) (ha : Announces digits)
    (hp : payload.length < digitsValue digits) :
    scan (noise ++ (spell digits ++ payload)) =
      (noiseRun noise ++ [frame (spell digits ++ payload) false],
        waiting (digitsValue digits - payload.length) (Nat.sub_pos_of_lt hp)) := by
  have hl := locate_append_spell noise digits payload hn ha
  have hlen : (spell digits ++ payload).length =
      Header.sizeOf digits.length + payload.length := by
    rw [List.length_append, spell_length]
  have hlt : (spell digits ++ payload).length < (spelledAt noise.length digits).frameSize := by
    rw [spelledAt_frameSize, hlen]
    omega
  have hne : spell digits ++ payload ≠ [] :=
    List.append_ne_nil_of_left_ne_nil (spell_ne_nil digits) payload
  rw [scan_of_some _ _ hl, spelledAt_start, List.drop_left, List.take_left,
    feed_waiting_of_lt _ _ _ hne hlt]
  simp only [prepend, spelledAt_frameSize, hlen, Nat.add_sub_add_left]

theorem scan_message (noise digits payload rest : Bytes) (hn : locate noise = none)
    (ha : Announces digits) (hp : payload.length = digitsValue digits) :
    scan (noise ++ (spell digits ++ payload ++ rest)) =
      prepend (noiseRun noise ++ [frame (spell digits ++ payload) true]) (scan rest) := by
  have hl := locate_append_spell noise digits (payload ++ rest) hn ha
  have hsize : (spell digits ++ payload).length =
      (spelledAt noise.length digits).frameSize := by
    rw [spelledAt_frameSize, List.length_append, spell_length, hp]
  rw [← List.append_assoc (spell digits)] at hl
  rw [scan_of_some _ _ hl, spelledAt_start, List.drop_left, List.take_left,
    feed_waiting_append _ _ _ rest hsize, prepend_prepend]

theorem pushAll_scan_message (noise digits payload rest : Bytes) (hn : locate noise = none)
    (ha : Announces digits) (hp : payload.length = digitsValue digits) :
    Assembler.empty.pushAll (scan (noise ++ (spell digits ++ payload ++ rest))).1 =
      ((spell digits ++ payload) :: (Assembler.empty.pushAll (scan rest).1).1,
        (Assembler.empty.pushAll (scan rest).1).2) := by
  rw [scan_message noise digits payload rest hn ha hp, prepend_fst, List.append_assoc,
    Assembler.pushAll_noiseRun_append, List.singleton_append, Assembler.pushAll_end]
  rfl

theorem locate_pending_scan (buffer : Bytes) : locate (scan buffer).2.pending = none := by
  induction Layout.of_bytes buffer with
  | quiet noise hn =>
    have htrim := locate_append_of_none noise [] hn
    rw [List.append_nil, List.append_nil, hn] at htrim
    rw [scan_of_none noise hn]
    exact Option.map_eq_none_iff.mp htrim.symm
  | cut noise digits payload hn ha hp =>
    rw [scan_cut noise digits payload hn ha hp]
    exact locate_nil
  | message noise digits payload rest hn ha hp hr ih =>
    rwa [scan_message noise digits payload rest hn ha hp, prepend_snd]

/-- What can be read off the segments of a run, and behind it the bytes that the run keeps. -/
def readOff (f : Segment → Bytes) (run : List Segment × Sanitizer) : Bytes :=
  run.1.flatMap f ++ run.2.pending

theorem readOff_prepend (f : Segment → Bytes) (first : List Segment)
    (run : List Segment × Sanitizer) :
    readOff f (prepend first run) = first.flatMap f ++ readOff f run := by
  simp only [readOff, prepend, List.flatMap_append, List.append_assoc]

theorem readOff_scan_of_none (f : Segment → Bytes) (hf : ∀ b, f (.noise b) = b) (noise : Bytes)
    (hn : locate noise = none) : readOff f (scan noise) = noise := by
  rw [scan_of_none noise hn, readOff, flatMap_noiseRun f hf]
  exact List.take_append_drop _ _

theorem readOff_scan_message (f : Segment → Bytes) (hf : ∀ b, f (.noise b) = b)
    (noise digits payload rest : Bytes) (hn : locate noise = none) (ha : Announces digits)
    (hp : payload.length = digitsValue digits) :
    readOff f (scan (noise ++ (spell digits ++ payload ++ rest))) =
      noise ++ f (.frame (spell digits ++ payload) true) ++ readOff f (scan rest) := by
  rw [scan_message noise digits payload rest hn ha hp, readOff_prepend, List.flatMap_append,
    flatMap_noiseRun f hf, List.flatMap_singleton]

theorem scan_quiet (noise : Bytes) (hn : locate noise = none) :
    Assembler.empty.pushAll (scan noise).1 = ([], .empty) ∧ (scan noise).2.owed = 0 ∧
      readOff noiseBytes (scan noise) = noise := by
  refine ⟨?_, ?_, readOff_scan_of_none _ (fun _ => rfl) _ hn⟩
  · rw [scan_of_none _ hn]
    exact Assembler.pushAll_noiseRun _ _
  · rw [scan_of_none _ hn]
    rfl

/-- Noise and a message in front of a stream add themselves to what the stream comes to. -/
theorem scan_part (noise digits payload rest : Bytes) (hn : locate noise = none)
    (ha : Announces digits) (hp : payload.length = digitsValue digits) :
    let run := scan (noise ++ (spell digits ++ payload ++ rest))
    Assembler.empty.pushAll run.1 =
        ((spell digits ++ payload) :: (Assembler.empty.pushAll (scan rest).1).1,
          (Assembler.empty.pushAll (scan rest).1).2) ∧
      run.2.owed = (scan rest).2.owed ∧
      readOff noiseBytes run = noise ++ readOff noiseBytes (scan rest) := by
  refine ⟨pushAll_scan_message _ _ _ _ hn ha hp, ?_, ?_⟩
  · rw [scan_message _ _ _ _ hn ha hp, prepend_snd]
  · rw [readOff_scan_message _ (fun _ => rfl) _ _ _ _ hn ha hp]
    exact congrArg (· ++ _) (List.append_nil noise)

end Sanitizer

end NoiseGate

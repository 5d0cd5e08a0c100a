import NoiseGate.Proofs.Frame.Chunking
import NoiseGate.Proofs.Frame.Layout
import NoiseGate.Proofs.Frame.Reading

/-!
# Agreement of the two readers

What the sanitizer passes on is a clean stream. The strict reader, which knows nothing of the
sanitizer's way to find headers, finds the same messages in it, and its last word says whether the
sanitizer still waits for a payload.
-/

namespace NoiseGate

open Header Segment Sanitizer

def payloadOf (message : Bytes) : Bytes :=
  match locate message with
  | some h => message.drop h.stop
  | none => message

/-- No header of a message, or of the message in flight, announces a payload that is too long. -/
def Readable (assembled : List Bytes × Assembler) : Prop :=
  ∀ part ∈ assembled.1 ++ [assembled.2.held], ∀ h ∈ locate part, h.payload ≤ bodyMax

instance (assembled : List Bytes × Assembler) : Decidable (Readable assembled) :=
  inferInstanceAs (Decidable (∀ part ∈ assembled.1 ++ [assembled.2.held],
    ∀ h ∈ locate part, h.payload ≤ bodyMax))

theorem payloadOf_spell (digits payload : Bytes) (ha : Announces digits) :
    payloadOf (spell digits ++ payload) = payload := by
  have hl := locate_append_spell [] digits payload locate_nil ha
  have hstop : (spelledAt 0 digits).stop = (spell digits).length := by
    rw [spell_length]
    exact Nat.zero_add _
  rw [List.nil_append] at hl
  simp only [payloadOf, hl, List.length_nil, hstop, List.drop_left]

theorem readable_spell (digits payload : Bytes) (assembled : List Bytes × Assembler)
    (ha : Announces digits) (hr : Readable assembled)
    (hm : spell digits ++ payload ∈ assembled.1 ++ [assembled.2.held]) :
    digitsValue digits ≤ bodyMax := by
  have hl := locate_append_spell [] digits payload locate_nil ha
  exact hr _ hm _ hl

theorem signals_flatten (cuts : List Bytes) (hc : ∀ cut ∈ cuts, cut ≠ []) :
    (cuts.map Arrival.bytes).flatMap Arrival.signals = cuts.flatten.map .byte := by
  induction cuts with
  | nil => rfl
  | cons cut cuts ih =>
    obtain ⟨b, data, rfl⟩ := List.exists_cons_of_ne_nil (hc cut List.mem_cons_self)
    have hrest : ∀ cut ∈ cuts, cut ≠ [] := fun cut h => hc cut (List.mem_cons_of_mem _ h)
    rw [List.map_cons, List.flatMap_cons, ih hrest, List.flatten_cons, List.map_append]
    rfl

namespace Sanitizer

private theorem frameBytes_noiseRun_frame (noise data : Bytes) (complete : Bool) :
    (noiseRun noise ++ [frame data complete]).flatMap frameBytes = data := by
  rw [List.flatMap_append, frameBytes_noiseRun, List.nil_append, List.flatMap_singleton]
  rfl

private theorem frameBytes_scan_message (noise digits payload rest : Bytes)
    (hn : locate noise = none) (ha : Announces digits)
    (hp : payload.length = digitsValue digits) :
    (scan (noise ++ (spell digits ++ payload ++ rest))).1.flatMap frameBytes =
      spell digits ++ payload ++ (scan rest).1.flatMap frameBytes := by
  rw [scan_message noise digits payload rest hn ha hp, prepend_fst, List.flatMap_append,
    frameBytes_noiseRun_frame]

theorem readFrames_scan (stream : Bytes) (limit : Nat)
    (hl : (Assembler.empty.pushAll (scan stream).1).1.length < limit)
    (hr : Readable (Assembler.empty.pushAll (scan stream).1)) :
    readFrames false limit (((scan stream).1.flatMap frameBytes).map .byte) =
      (Assembler.empty.pushAll (scan stream).1).1.map (fun m => .ok (some (payloadOf m))) ++
        [if (scan stream).2.owed = 0 then .ok none else .error .bodyCut] := by
  -- the reader needs one more read than there are messages, to find the end
  obtain ⟨more, rfl⟩ := Nat.exists_eq_add_one.mpr (Nat.zero_lt_of_lt hl)
  induction Layout.of_bytes stream generalizing more with
  | quiet noise hn =>
    rw [scan_of_none noise hn, Assembler.pushAll_noiseRun, frameBytes_noiseRun]
    exact readFrames_nil false more
  | cut noise digits payload hn ha hp =>
    have howed : digitsValue digits - payload.length ≠ 0 := Nat.sub_ne_zero_of_lt hp
    rw [scan_cut noise digits payload hn ha hp, Assembler.pushAll_noiseRun_append] at hr ⊢
    have hmax := readable_spell digits payload _ ha hr (by simp [Assembler.empty])
    rw [frameBytes_noiseRun_frame, readFrames_cut more digits payload ha hp hmax]
    simp [owed, howed]
  | message noise digits payload rest hn ha hp _ ih =>
    rw [pushAll_scan_message noise digits payload rest hn ha hp] at hl hr ⊢
    have hmax := readable_spell digits payload _ ha hr (by simp)
    have hrest : Readable (Assembler.empty.pushAll (scan rest).1) :=
      fun part hm => hr part (List.mem_cons_of_mem _ hm)
    have hless : (Assembler.empty.pushAll (scan rest).1).1.length < more :=
      Nat.lt_of_succ_lt_succ hl
    obtain ⟨fewer, rfl⟩ := Nat.exists_eq_add_one.mpr (Nat.zero_lt_of_lt hless)
    have howed : (scan (noise ++ (spell digits ++ payload ++ rest))).2.owed =
        (scan rest).2.owed := by
      rw [scan_message noise digits payload rest hn ha hp, prepend_snd]
    rw [frameBytes_scan_message noise digits payload rest hn ha hp, List.map_append,
      readFrames_frame false _ digits payload _ ha hp hmax, ih hrest fewer hless, howed,
      List.map_cons, payloadOf_spell digits payload ha, List.cons_append]

/-- The strict reader takes from what a sanitizer passed on, however it is cut, the payloads of the
complete messages. Then it finds the end, or, if the sanitizer still waits, a body cut short. -/
theorem readFrames_feedAll (chunks cuts : List Bytes) (limit : Nat)
    (hc : ∀ cut ∈ cuts, cut ≠ [])
    (hcuts : cuts.flatten = (start.feedAll chunks).1.flatMap frameBytes)
    (hl : (Assembler.empty.pushAll (start.feedAll chunks).1).1.length < limit)
    (hr : Readable (Assembler.empty.pushAll (start.feedAll chunks).1)) :
    let run := start.feedAll chunks
    let messages := (Assembler.empty.pushAll run.1).1
    (readFrames false limit ((cuts.map Arrival.bytes).flatMap Arrival.signals)).map
        (Except.mapError ReadError.message) =
      messages.map (fun m => .ok (some (payloadOf m))) ++
        [if run.2.owed = 0 then .ok none else .error "reading frame body: early eof"] := by
  intro run messages
  have hscan := readFrames_scan chunks.flatten limit
  rw [← frameBytes_feedAll, ← pushAll_feedAll, ← state_feedAll, ← hcuts] at hscan
  have hend : Except.mapError ReadError.message
      (if run.2.owed = 0 then (.ok none : Except ReadError (Option Bytes)) else .error .bodyCut) =
      if run.2.owed = 0 then .ok none else .error "reading frame body: early eof" := by
    split <;> rfl
  rw [signals_flatten cuts hc, hscan hl hr, List.map_append, List.map_map, List.map_singleton, hend]
  rfl

/-- Leading zeros, an empty payload, a payload that looks like a header, and a message cut off. -/
theorem readFrames_feedAll_cut :
    let noise := ascii "starting\nContent-Length: x\n"
    let bare := ascii "Content-Length: 000\r\n\r\n"
    let nested := ascii "Content-Length: 021\r\n\r\n" ++ ascii "Content-Length: 5\r\n\r\n"
    let cut := ascii "Content-Length: 9\r\n\r\nshort"
    let chunks := [noise ++ bare.take 7, bare.drop 7 ++ noise, [], nested ++ cut]
    let cuts := [bare ++ nested.take 30, nested.drop 30 ++ cut]
    let run := start.feedAll chunks
    cuts.flatten = run.1.flatMap frameBytes ∧ Readable (Assembler.empty.pushAll run.1) ∧
    (readFrames false 3 ((cuts.map Arrival.bytes).flatMap Arrival.signals)).map
        (Except.mapError ReadError.message) =
      [.ok (some []), .ok (some (ascii "Content-Length: 5\r\n\r\n")),
        .error "reading frame body: early eof"] := by
  intro noise bare nested cut chunks cuts run
  have hcuts : cuts.flatten = run.1.flatMap frameBytes := by decide +kernel
  have hreadable : Readable (Assembler.empty.pushAll run.1) := by decide +kernel
  have hmessages : (Assembler.empty.pushAll run.1).1 = [bare, nested] := by decide +kernel
  have hlimit : (Assembler.empty.pushAll run.1).1.length < 3 := by
    rw [hmessages]
    decide
  have howed : run.2.owed ≠ 0 := by decide +kernel
  have hbare : payloadOf bare = [] := by decide +kernel
  have hnested : payloadOf nested = ascii "Content-Length: 5\r\n\r\n" := by decide +kernel
  have hread := readFrames_feedAll chunks cuts 3 (by decide) hcuts hlimit hreadable
  refine ⟨hcuts, hreadable, hread.trans ?_⟩
  rw [hmessages, if_neg howed, List.map_cons, List.map_singleton, hbare, hnested]
  rfl

end Sanitizer

end NoiseGate

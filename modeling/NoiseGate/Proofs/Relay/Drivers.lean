import NoiseGate.Proofs.Frame.Chunking
import NoiseGate.Proofs.Frame.Protocol
import NoiseGate.Proofs.Relay.Running

/-!
# The two drivers of the sanitizer

The relay forwards the pieces of messages as they come, and the stream of messages gives messages
when they are whole. Both put the same reads through the sanitizer, so that they part only over the
message that is in flight when the reads end: the relay has forwarded what there is of it.
-/

namespace NoiseGate

open Segment Arrival Sanitizer

theorem Transcript.held {segments : List Segment} {pieces : List Bytes}
    (ht : Transcript segments pieces) (a : Assembler) (ha : a.held = []) :
    (a.pushAll segments).2.held = pieces.flatten := by
  induction ht generalizing a with
  | inFlight pieces hp =>
    have hall := a.pushAll_pieces pieces []
    rw [List.append_nil] at hall
    rw [hall, ha]
    rfl
  | noise run rest pieces _ _ ih => exact ih a ha
  | message parts last rest pieces _ _ _ _ ih =>
    rw [Assembler.pushAll_pieces, Assembler.pushAll_end]
    exact ih .empty rfl

theorem Sanitizer.Carries.lacks {pieces : List Bytes} {s : Sanitizer} (hc : Carries pieces s) :
    ∃ message, IsFrame message ∧ pieces.flatten <+: message ∧ pieces.flatten ≠ message ∧
      (pieces.flatten = [] ↔ s.owed = 0) := by
  cases s with
  | scanning pending =>
    have hzero : Header.Announces [48] := ⟨by decide, List.all_eq_true.mp rfl, by decide⟩
    have hframe := isFrame_spell [48] [] hzero rfl
    change pieces = [] at hc
    subst hc
    refine ⟨_, hframe, List.nil_prefix, ?_, ?_⟩
    · exact (List.append_ne_nil_of_left_ne_nil (Header.spell_ne_nil _) []).symm
    · exact ⟨fun _ => rfl, fun _ => rfl⟩
  | waiting owed ho =>
    obtain ⟨digits, payload, ha, hflat, howed⟩ := hc
    obtain ⟨message, h, hl, hstart, hsize, hprefix, hne, -⟩ :=
      isCutFrame_spell digits payload owed ha ho howed
    rw [hflat]
    refine ⟨message, ⟨h, hl, hstart, hsize⟩, hprefix, hne, ?_, ?_⟩
    · intro hnil
      exact absurd hnil (List.append_ne_nil_of_left_ne_nil (Header.spell_ne_nil _) _)
    · intro hzero
      exact absurd hzero (Nat.ne_of_gt ho)

namespace Messages

theorem items_of_none {m later : Messages} (h : m.next = (none, later)) : m.items = ([], later) := by
  rw [items]
  split
  · rename_i other hnext
    rw [h] at hnext
    cases hnext
    rfl
  · rename_i item other hnext
    rw [h] at hnext
    cases hnext

theorem items_of_some {m later : Messages} {item : Except Fault Bytes}
    (h : m.next = (some item, later)) :
    m.items = ((item, later.reads) :: later.items.1, later.items.2) := by
  rw [items]
  split
  · rename_i other hnext
    rw [h] at hnext
    cases hnext
  · rename_i item' other hnext
    rw [h] at hnext
    cases hnext
    rfl

theorem items_congr {m m' : Messages} (h : m.next = m'.next) : m.items = m'.items := by
  match hnext : m'.next with
  | (none, later) => rw [items_of_none (h.trans hnext), items_of_none hnext]
  | (some item, later) => rw [items_of_some (h.trans hnext), items_of_some hnext]

theorem next_of_ended (m : Messages) (hs : m.sanitizer = none) (hr : m.ready = []) :
    m.next = (none, m) := by
  obtain ⟨arrivals, reads, sanitizer, assembler, ready, noise, events⟩ := m
  cases hs
  cases hr
  rw [next]

theorem items_of_fault {m : Messages} {cause : Fault} {rest : List Arrival} (hr : m.ready = [])
    (h : m.next = (some (.error cause),
      { m with arrivals := rest, reads := m.reads + 1, sanitizer := none })) :
    m.items = ([(.error cause, m.reads + 1)],
      { m with arrivals := rest, reads := m.reads + 1, sanitizer := none }) := by
  let later : Messages := { m with arrivals := rest, reads := m.reads + 1, sanitizer := none }
  have hended : later.items = ([], later) := items_of_none (next_of_ended later rfl hr)
  rw [items_of_some h, show Messages.items _ = _ from hended]

/-- Messages that are ready are given before anything else is done, without a read. -/
theorem items_ready (ready : List Bytes) (m : Messages) :
    let later := ({ m with ready := [] } : Messages).items
    ({ m with ready := ready } : Messages).items =
      (ready.map (fun message => (.ok message, m.reads)) ++ later.1, later.2) := by
  induction ready with
  | nil => rfl
  | cons message ready ih =>
    have hnext : ({ m with ready := message :: ready } : Messages).next =
        (some (.ok message), { m with ready := ready }) := by rw [next]
    rw [items_of_some hnext, ih]
    rfl

theorem items_of_next {m later : Messages} (h : m.next = later.next) :
    let rest := ({ later with ready := [] } : Messages).items
    m.items = (later.ready.map (fun message => (.ok message, later.reads)) ++ rest.1, rest.2) :=
  (items_congr h).trans (items_ready later.ready later)

theorem next_of_read (m : Messages) (s : Sanitizer) (hs : m.sanitizer = some s) (hr : m.ready = []) :
    m.next =
      match m.arrivals with
      | [] => (none, m.close s [])
      | .bytes [] :: rest => (none, m.close s rest)
      | .fault cause :: rest =>
        (some (.error cause), { m with arrivals := rest, reads := m.reads + 1, sanitizer := none })
      | .bytes (b :: chunk) :: rest => (m.take s (b :: chunk) rest).next := by
  obtain ⟨arrivals, reads, sanitizer, assembler, ready, noise, events⟩ := m
  cases hs
  cases hr
  rw [next]
  rcases arrivals with _ | ⟨⟨_ | ⟨b, chunk⟩⟩ | cause, rest⟩ <;> rfl

/-- What a stream of messages, of which none is ready, has given and left at its end, if the chunks
to come make these segments and it then ends or fails. -/
structure Pulled (m : Messages) (segments : List Segment) (last : Sanitizer) (cause : Option Fault) :
    Prop where
  items : m.items.1.map Prod.fst =
    (m.assembler.pushAll segments).1.map .ok ++ cause.toList.map .error
  noise : m.items.2.noise = m.noise ++ noiseRuns segments
  assembler : m.items.2.assembler = (m.assembler.pushAll segments).2
  events : m.items.2.events = m.events ++ cause.elim last.leftover.events fun _ => []

variable {m : Messages} {s last : Sanitizer} {arrivals rest : List Arrival} {segments : List Segment}
  {cause : Option Fault}

theorem Pulled.of_close (h : m.next = (none, m.close s rest)) : m.Pulled [] s none := by
  have hitems := items_of_none h
  refine ⟨?_, ?_, ?_, ?_⟩ <;> rw [hitems]
  · rfl
  · exact (List.append_nil _).symm
  · rfl
  · rfl

theorem Pulled.of_fault {fault : Fault} (h : m.next = (some (.error fault),
      { m with arrivals := rest, reads := m.reads + 1, sanitizer := none }))
    (hr : m.ready = []) : m.Pulled [] s (some fault) := by
  have hitems := items_of_fault hr h
  refine ⟨?_, ?_, ?_, ?_⟩ <;> rw [hitems]
  · rfl
  · exact (List.append_nil _).symm
  · rfl
  · exact (List.append_nil _).symm

/-- A read in front of the others. The messages that it completes are given first. -/
theorem Pulled.read {chunk : Bytes} (h : m.next = (m.take s chunk rest).next) (hr : m.ready = [])
    (hp : ({ m.take s chunk rest with ready := [] } : Messages).Pulled segments last cause) :
    m.Pulled ((s.feed chunk).1 ++ segments) last cause := by
  have hcompleted : (m.take s chunk rest).ready = (m.assembler.pushAll (s.feed chunk).1).1 := by
    simp [take, hr]
  have hitems := items_of_next h
  refine ⟨?_, ?_, ?_, ?_⟩ <;> rw [hitems]
  · rw [List.map_append, List.map_map, hp.items, hcompleted, Assembler.pushAll_append, List.map_append,
      List.append_assoc]
    rfl
  · rw [hp.noise, noiseRuns_append, ← List.append_assoc]
    rfl
  · rw [hp.assembler, Assembler.pushAll_append]
    rfl
  · rw [hp.events]
    rfl

theorem pulled (m : Messages) (s : Sanitizer) (arrivals : List Arrival) (ha : m.arrivals = arrivals)
    (hs : m.sanitizer = some s) (hr : m.ready = []) :
    m.Pulled (s.feedAll (delivered arrivals)).1 (s.feedAll (delivered arrivals)).2
      (Arrival.failure arrivals) := by
  have hnext := m.next_of_read s hs hr
  rw [ha] at hnext
  fun_induction delivered arrivals generalizing m s with
  | case1 => exact .of_close hnext
  | case2 rest => exact .of_close hnext
  | case3 cause rest => exact .of_fault hnext hr
  | case4 b chunk rest ih =>
    rw [Sanitizer.feedAll_cons, Sanitizer.prepend_fst, Sanitizer.prepend_snd]
    exact .read hnext hr (ih _ _ rfl rfl rfl (next_of_read _ _ rfl rfl))

end Messages

/-- The relay and the stream of messages, put to the same source, find the same runs of noise, end
with the same fault or report the same about the end. The stream gives the messages completed and
then the fault. The relay has written these messages and what there is of a frame in flight, which is
nothing exactly if no payload is owed. -/
theorem relay_agrees_with_messages (stream : List Arrival) :
    let run := start.feedAll (delivered stream)
    let messages := (Assembler.empty.pushAll run.1).1
    let (result, relay) := relay stream (.new none false)
    let (items, pulled) := (Messages.start stream).items
    relay.noise = pulled.noise ∧
      items.map Prod.fst = messages.map .ok ++ (failure stream).toList.map .error ∧
      (∀ cause, result = .error cause ↔ failure stream = some cause) ∧
      Relay.events result = pulled.events ∧
      ∃ part message, relay.outlet.written = messages.flatten ++ part ∧
        IsFrame message ∧ part <+: message ∧ part ≠ message ∧ (part = [] ↔ run.2.owed = 0) := by
  intro run messages
  obtain ⟨hbytes, hfailure⟩ := reads_delivery stream
  obtain ⟨hrun, -⟩ := (Relay.start (.new none false)).run_of_fits (stream.flatMap reads) rfl nofun
  -- the runs of noise show how the stream is cut, so both drivers are put to the reads, not to it
  have hpulled := (Messages.start stream).pulled .start (stream.flatMap reads) rfl rfl rfl
  have hassembled : Assembler.empty.pushAll (start.feedAll (delivered (stream.flatMap reads))).1 =
      Assembler.empty.pushAll run.1 := by
    rw [pushAll_feedAll, pushAll_feedAll, hbytes]
  obtain ⟨pieces, htranscript, hcarries⟩ :=
    feedAll_transcript start (delivered stream) [] [] Transcript.nil rfl
  have hheld : (Assembler.empty.pushAll run.1).2.held = pieces.flatten :=
    Transcript.held htranscript .empty rfl
  obtain ⟨message, hframe, hprefix, hne, howed⟩ := hcarries.lacks
  have hwritten := Assembler.empty.pushAll_bytes (start.feedAll (delivered (stream.flatMap reads))).1
  rw [hassembled, hheld] at hwritten
  rw [relay, hrun, Relay.stats_relayed]
  refine ⟨hpulled.noise.symm, ?_, ?_, ?_, pieces.flatten, message, hwritten, hframe, hprefix, hne,
    howed⟩
  · have hempty : (Messages.start stream).assembler = .empty := rfl
    rw [hpulled.items, hfailure, hempty, hassembled]
  · rw [hfailure]
    cases failure stream with
    | none => simp
    | some cause => simp
  · rw [hpulled.events, hfailure]
    cases failure stream with
    | none => rfl
    | some cause => rfl

end NoiseGate

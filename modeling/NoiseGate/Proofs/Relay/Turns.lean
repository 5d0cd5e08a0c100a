import NoiseGate.Proofs.Frame.Chunking
import NoiseGate.Proofs.Relay.Running

/-!
# What a relay does between reads

A relay acts on its outlet and on the place where noise goes. Each of its turns is a read and the
actions that the read gives rise to. By the time of a read call the relay has acted on all that the
reads before it gave, up to bytes that hold no header, and has flushed what it wrote.
-/

namespace NoiseGate

open Header Segment Arrival

/-- What a relay does to the world around it. -/
inductive Action
  | write (data : Bytes)
  | flush
  | discard (run : Bytes)
  deriving DecidableEq

namespace Action

def ofSegment : Segment → Action
  | .frame data _ => write data
  | .noise run => discard run

/-- The actions that are due for the segments of one chunk. -/
def ofSegments (segments : List Segment) : List Action :=
  segments.map ofSegment ++ if Relay.hasFrame segments then [flush] else []

def ofChunks (s : Sanitizer) : List Bytes → List Action
  | [] => []
  | chunk :: rest => ofSegments (s.feed chunk).1 ++ ofChunks (s.feed chunk).2 rest

def performOn (o : Outlet) : Action → Outlet × Option Fault
  | write data => o.write data
  | flush => o.flush
  | discard _ => (o, none)

def outgoing : Action → Bytes
  | write data => data
  | flush => []
  | discard _ => []

def discarded : Action → List Bytes
  | write _ => []
  | flush => []
  | discard run => [run]

def bytes : Action → Bytes
  | write data => data
  | flush => []
  | discard run => run

/-- The bytes that stand in a buffer of the outlet behind some actions. -/
def unflushed (held : Bytes) : List Action → Bytes
  | [] => held
  | write data :: rest => unflushed (held ++ data) rest
  | flush :: rest => unflushed [] rest
  | discard _ :: rest => unflushed held rest

theorem unflushed_append (held : Bytes) (first second : List Action) :
    unflushed held (first ++ second) = unflushed (unflushed held first) second := by
  induction first generalizing held with
  | nil => rfl
  | cons action first ih => cases action <;> exact ih _

end Action

namespace Outlet

def perform (o : Outlet) : List Action → Outlet × Option Fault
  | [] => (o, none)
  | action :: rest =>
    match action.performOn o with
    | (o, some cause) => (o, some cause)
    | (o, none) => o.perform rest

/-- The actions up to the first that fails, and with it. -/
def begun (o : Outlet) : List Action → List Action
  | [] => []
  | action :: rest =>
    match action.performOn o with
    | (_, some _) => [action]
    | (o, none) => action :: o.begun rest

theorem perform_append (o : Outlet) (first second : List Action) :
    o.perform (first ++ second) =
      match o.perform first with
      | (later, some cause) => (later, some cause)
      | (later, none) => later.perform second := by
  induction first generalizing o with
  | nil => rfl
  | cons action first ih =>
    rw [List.cons_append, perform, perform]
    rcases action.performOn o with ⟨later, _ | cause⟩
    · exact ih later
    · rfl

theorem perform_begun (o : Outlet) (actions : List Action) :
    o.perform (o.begun actions) = o.perform actions := by
  induction actions generalizing o with
  | nil => rfl
  | cons action actions ih =>
    rw [begun, perform]
    rcases h : action.performOn o with ⟨later, _ | cause⟩
    · rw [perform, h]
      exact ih later
    · rw [perform, h]

theorem begun_begun (o : Outlet) (actions : List Action) :
    o.begun (o.begun actions) = o.begun actions := by
  induction actions generalizing o with
  | nil => rfl
  | cons action actions ih =>
    rw [begun]
    rcases h : action.performOn o with ⟨later, _ | cause⟩
    · rw [begun, h]
      exact congrArg (action :: ·) (ih later)
    · rw [begun, h]

theorem begun_append (o : Outlet) (first second : List Action) :
    o.begun (first ++ second) =
      o.begun first ++
        match o.perform first with
        | (_, some _) => []
        | (later, none) => later.begun second := by
  induction first generalizing o with
  | nil => rfl
  | cons action first ih =>
    rw [List.cons_append, begun, begun, perform]
    rcases action.performOn o with ⟨later, _ | cause⟩
    · exact congrArg (action :: ·) (ih later)
    · rfl

variable {o later : Outlet}

theorem begun_of_perform {actions : List Action} (h : o.perform actions = (later, none)) :
    o.begun actions = actions := by
  induction actions generalizing o with
  | nil => rfl
  | cons action actions ih =>
    rw [perform] at h
    rw [begun]
    rcases hstep : action.performOn o with ⟨next, _ | cause⟩
    · rw [hstep] at h
      exact congrArg (action :: ·) (ih h)
    · rw [hstep] at h
      cases h

theorem written_of_perform {actions : List Action} (h : o.perform actions = (later, none)) :
    later.written = o.written ++ actions.flatMap Action.outgoing ∧
      later.flushes = o.flushes + actions.count .flush := by
  induction actions generalizing o with
  | nil =>
    cases h
    exact ⟨(List.append_nil _).symm, rfl⟩
  | cons action actions ih =>
    rw [perform] at h
    rcases hstep : action.performOn o with ⟨next, _ | cause⟩
    · rw [hstep] at h
      obtain ⟨hwritten, hflushes⟩ := ih h
      rw [hwritten, hflushes, List.flatMap_cons]
      cases action with
      | write data =>
        have hsame := o.write_flushes data
        rw [show o.write data = _ from hstep] at hsame
        rw [written_of_write hstep, show next.flushes = _ from hsame, List.append_assoc]
        exact ⟨rfl, rfl⟩
      | flush =>
        simp only [Action.performOn, Outlet.flush] at hstep
        split at hstep <;> cases hstep
        simp only [List.count_cons_self]
        exact ⟨rfl, by omega⟩
      | discard run =>
        cases hstep
        exact ⟨rfl, rfl⟩
    · rw [hstep] at h
      cases h

end Outlet

namespace Action

theorem flatMap_ofChunks {α : Type} (f : Action → List α) (hf : f flush = []) (s : Sanitizer)
    (chunks : List Bytes) :
    (ofChunks s chunks).flatMap f =
      (s.feedAll chunks).1.flatMap fun segment => f (ofSegment segment) := by
  induction chunks generalizing s with
  | nil => rfl
  | cons chunk chunks ih =>
    have hflush : (if Relay.hasFrame (s.feed chunk).1 then [flush] else []).flatMap f = [] := by
      split <;> simp [hf]
    rw [Sanitizer.feedAll_cons, Sanitizer.prepend_fst, List.flatMap_append, ofChunks,
      List.flatMap_append, ih, ofSegments, List.flatMap_append, hflush, List.append_nil,
      List.flatMap_map]

theorem outgoing_ofChunks (s : Sanitizer) (chunks : List Bytes) :
    (ofChunks s chunks).flatMap outgoing = (s.feedAll chunks).1.flatMap frameBytes := by
  rw [flatMap_ofChunks outgoing rfl]
  congr 1
  funext segment
  cases segment <;> rfl

theorem bytes_ofChunks (s : Sanitizer) (chunks : List Bytes) :
    (ofChunks s chunks).flatMap bytes = (s.feedAll chunks).1.flatMap Segment.bytes := by
  rw [flatMap_ofChunks bytes rfl]
  congr 1
  funext segment
  cases segment <;> rfl

theorem discarded_ofChunks (s : Sanitizer) (chunks : List Bytes) :
    (ofChunks s chunks).flatMap discarded = Messages.noiseRuns (s.feedAll chunks).1 := by
  rw [flatMap_ofChunks discarded rfl]
  induction (s.feedAll chunks).1 with
  | nil => rfl
  | cons segment segments ih =>
    cases segment with
    | frame data complete => exact ih
    | noise run => exact congrArg (run :: ·) ih

theorem count_flush_ofSegments (segments : List Segment) :
    (ofSegments segments).count flush = (Relay.hasFrame segments).toNat := by
  have hnone : (segments.map ofSegment).count flush = 0 := by
    rw [List.count_eq_zero]
    intro h
    obtain ⟨segment, _, hsegment⟩ := List.mem_map.mp h
    cases segment <;> cases hsegment
  rw [ofSegments, List.count_append, hnone]
  cases Relay.hasFrame segments <;> rfl

theorem count_flush_ofChunks (s : Sanitizer) (chunks : List Bytes) :
    (ofChunks s chunks).count flush = Relay.flushesFor s chunks := by
  induction chunks generalizing s with
  | nil => rfl
  | cons chunk chunks ih =>
    rw [ofChunks, List.count_append, count_flush_ofSegments, ih, Relay.flushesFor]

theorem unflushed_of_not_hasFrame (held : Bytes) (segments : List Segment)
    (h : Relay.hasFrame segments = false) : unflushed held (segments.map ofSegment) = held := by
  induction segments with
  | nil => rfl
  | cons segment segments ih =>
    cases segment with
    | frame data complete => simp [Relay.hasFrame] at h
    | noise run => exact ih (by simpa [Relay.hasFrame] using h)

theorem unflushed_ofSegments (segments : List Segment) : unflushed [] (ofSegments segments) = [] := by
  rw [ofSegments, unflushed_append]
  cases h : Relay.hasFrame segments with
  | false => exact unflushed_of_not_hasFrame [] segments h
  | true => rfl

theorem unflushed_ofChunks (s : Sanitizer) (chunks : List Bytes) :
    unflushed [] (ofChunks s chunks) = [] := by
  induction chunks generalizing s with
  | nil => rfl
  | cons chunk chunks ih => rw [ofChunks, unflushed_append, unflushed_ofSegments, ih]

end Action

namespace Relay

/-- The outcome of a relay that performs some actions. -/
structure Performs (r : Relay) (actions : List Action) (later : Relay) (failure : Option Fault) :
    Prop where
  outlet : r.outlet.perform actions = (later.outlet, failure)
  noise : later.noise = r.noise ++ (r.outlet.begun actions).flatMap Action.discarded

theorem performs_nil (r : Relay) : r.Performs [] r none :=
  ⟨rfl, (List.append_nil _).symm⟩

variable {r mid later : Relay} {first second : List Action} {fault : Option Fault}

theorem Performs.trans (h : r.Performs first mid none) (h' : mid.Performs second later fault) :
    r.Performs (first ++ second) later fault := by
  constructor
  · rw [Outlet.perform_append, h.outlet]
    exact h'.outlet
  · rw [h'.noise, h.noise, Outlet.begun_append, h.outlet, List.flatMap_append, List.append_assoc]

theorem Performs.append_of_some {cause : Fault} (h : r.Performs first later (some cause))
    (second : List Action) : r.Performs (first ++ second) later (some cause) := by
  constructor
  · rw [Outlet.perform_append, h.outlet]
  · rw [Outlet.begun_append, h.outlet, List.append_nil]
    exact h.noise

theorem performs_flush (r : Relay) :
    r.Performs [.flush] { r with outlet := r.outlet.flush.1 } r.outlet.flush.2 := by
  rcases h : r.outlet.flush with ⟨outlet, _ | cause⟩ <;> constructor <;>
    simp [Outlet.perform, Outlet.begun, Action.performOn, Action.discarded, h]

theorem Performs.of_begun (h : r.Performs first later fault) :
    r.Performs (r.outlet.begun first) later fault := by
  constructor
  · rw [Outlet.perform_begun]
    exact h.outlet
  · rw [Outlet.begun_begun]
    exact h.noise

theorem pass_performs (r : Relay) (segments : List Segment) :
    r.Performs (segments.map Action.ofSegment) (r.pass segments).1 (r.pass segments).2 := by
  induction segments generalizing r with
  | nil => exact r.performs_nil
  | cons segment segments ih =>
    cases segment with
    | noise run =>
      have hone : r.Performs [.discard run]
          { r with noise := r.noise ++ [run], noiseBytes := r.noiseBytes + run.length } none :=
        ⟨rfl, rfl⟩
      exact hone.trans (ih _)
    | frame data complete =>
      rw [pass]
      rcases hwrite : r.outlet.write data with ⟨outlet, _ | cause⟩
      · have hone (messages messageBytes : Nat) : r.Performs [.write data]
            { r with outlet := outlet, messages := messages, messageBytes := messageBytes } none := by
          constructor
          · simp [Outlet.perform, Action.performOn, hwrite]
          · simp [Outlet.begun, Action.performOn, hwrite, Action.discarded]
        exact (hone _ _).trans (ih _)
      · constructor
        · simp [Outlet.perform, Action.ofSegment, Action.performOn, hwrite]
        · simp [Outlet.begun, Action.ofSegment, Action.performOn, hwrite, Action.discarded]

theorem pass_sanitizer (r : Relay) (segments : List Segment) :
    (r.pass segments).1.sanitizer = r.sanitizer := by
  induction segments generalizing r with
  | nil => rfl
  | cons segment segments ih =>
    cases segment with
    | noise run => exact ih _
    | frame data complete =>
      rw [pass]
      split
      · rfl
      · exact ih _

theorem take_performs (r : Relay) (chunk : Bytes) :
    r.Performs (Action.ofSegments (r.sanitizer.feed chunk).1) (r.take chunk).1 (r.take chunk).2 := by
  have hpass :=
    pass_performs { r with sanitizer := (r.sanitizer.feed chunk).2 } (r.sanitizer.feed chunk).1
  have hsame : r.Performs _ _ _ := ⟨hpass.outlet, hpass.noise⟩
  rw [take_eq, Action.ofSegments]
  rcases hresult : pass { r with sanitizer := (r.sanitizer.feed chunk).2 } (r.sanitizer.feed chunk).1
    with ⟨later, _ | cause⟩
  · rw [hresult] at hsame
    cases hasFrame (r.sanitizer.feed chunk).1 with
    | true => exact hsame.trans later.performs_flush
    | false => exact hsame.trans later.performs_nil
  · rw [hresult] at hsame
    exact hsame.append_of_some _

theorem take_sanitizer (r : Relay) (chunk : Bytes) :
    (r.take chunk).1.sanitizer = (r.sanitizer.feed chunk).2 := by
  have hpass :=
    pass_sanitizer { r with sanitizer := (r.sanitizer.feed chunk).2 } (r.sanitizer.feed chunk).1
  rw [take_eq]
  split
  · rename_i h
    rwa [h] at hpass
  · rename_i h
    rw [h] at hpass
    split <;> exact hpass

/-- A read of a relay, made with nothing left to do, and the actions that it gives rise to. -/
structure Turn where
  /-- The relay at the read call. -/
  now : Relay
  found : Arrival
  actions : List Action

/-- The turns of a run, up to the end of the stream or the first fault on either side. -/
def turns (r : Relay) : List Arrival → List Turn
  | [] => [⟨r, .bytes [], []⟩]
  | .bytes [] :: _ => [⟨r, .bytes [], []⟩]
  | .fault cause :: _ => [⟨r, .fault cause, []⟩]
  | .bytes (b :: chunk) :: rest =>
    ⟨r, .bytes (b :: chunk),
        r.outlet.begun (Action.ofSegments (r.sanitizer.feed (b :: chunk)).1)⟩ ::
      match r.take (b :: chunk) with
      | (_, some _) => []
      | (later, none) => later.turns rest

/-- A run performs the actions of its turns. -/
theorem run_performs (r : Relay) (arrivals : List Arrival) :
    r.Performs ((r.turns arrivals).flatMap Turn.actions) (r.run arrivals).2
      (r.writeFault arrivals) := by
  fun_induction run r arrivals with
  | case1 r => exact r.performs_nil
  | case2 r rest => exact r.performs_nil
  | case3 r cause rest => exact r.performs_nil
  | case4 r b chunk rest later cause htake =>
    have hone := r.take_performs (b :: chunk)
    rw [htake] at hone
    rw [turns, writeFault, htake, List.flatMap_singleton]
    exact hone.of_begun
  | case5 r b chunk rest later htake ih =>
    have hone := r.take_performs (b :: chunk)
    rw [htake] at hone
    rw [turns, writeFault, htake, List.flatMap_cons]
    exact hone.of_begun.trans ih

variable {turn next : Turn} {more : List Turn}

theorem now_of_turns (arrivals : List Arrival) (h : r.turns arrivals = turn :: more) :
    turn.now = r := by
  unfold turns at h
  split at h <;> cases h <;> rfl

theorem take_of_turns (arrivals : List Arrival) (h : r.turns arrivals = turn :: next :: more) :
    ∃ chunk rest later, r.take chunk = (later, none) ∧ later.turns rest = next :: more ∧
      turn.found = .bytes chunk ∧
      turn.actions = r.outlet.begun (Action.ofSegments (r.sanitizer.feed chunk).1) := by
  unfold turns at h
  split at h
  · cases h
  · cases h
  · cases h
  · rename_i b chunk rest
    obtain ⟨rfl, hmore⟩ := List.cons.inj h
    rcases htake : r.take (b :: chunk) with ⟨later, _ | cause⟩
    · rw [htake] at hmore
      exact ⟨b :: chunk, rest, later, htake, hmore, rfl, rfl⟩
    · rw [htake] at hmore
      cases hmore

/-- Before a read call, all that was due for the chunks so far has been performed. -/
theorem performs_before (arrivals : List Arrival) (before : List Turn)
    (h : r.turns arrivals = before ++ turn :: more) :
    ∃ chunks, before.map Turn.found = chunks.map .bytes ∧
      before.flatMap Turn.actions = Action.ofChunks r.sanitizer chunks ∧
      turn.now.sanitizer = (r.sanitizer.feedAll chunks).2 ∧
      r.Performs (Action.ofChunks r.sanitizer chunks) turn.now none := by
  -- turns are taken off from the front, each with the relay that the one before it left
  induction before generalizing r arrivals with
  | nil =>
    have hnow := now_of_turns arrivals h
    rw [hnow]
    exact ⟨[], rfl, rfl, rfl, r.performs_nil⟩
  | cons first before ih =>
    obtain ⟨next, others, hnext⟩ : ∃ next others, before ++ turn :: more = next :: others := by
      cases before <;> exact ⟨_, _, rfl⟩
    rw [List.cons_append, hnext] at h
    obtain ⟨chunk, rest, later, htake, hlater, hfound, hactions⟩ := take_of_turns arrivals h
    obtain ⟨chunks, hchunks, hdone, hstate, hrest⟩ := ih rest (hlater.trans hnext.symm)
    have hone := r.take_performs chunk
    have hsanitizer := r.take_sanitizer chunk
    rw [htake] at hone hsanitizer
    rw [Outlet.begun_of_perform hone.outlet] at hactions
    rw [show later.sanitizer = _ from hsanitizer] at hdone hstate hrest
    refine ⟨chunk :: chunks, ?_, ?_, ?_, ?_⟩
    · rw [List.map_cons, List.map_cons, hfound, hchunks]
    · rw [List.flatMap_cons, hactions, hdone, Action.ofChunks]
    · rw [hstate, Sanitizer.feedAll_cons, Sanitizer.prepend_snd]
    · exact hone.trans hrest

theorem found_turns (r : Relay) (arrivals : List Arrival) (ho : r.writeFault arrivals = none) :
    (r.turns arrivals).map Turn.found =
      (delivered arrivals).map .bytes ++ [(failure arrivals).elim (.bytes []) .fault] := by
  fun_induction writeFault r arrivals with
  | case1 r b chunk rest later cause htake => cases ho
  | case2 r b chunk rest later htake ih =>
    rw [turns, htake, List.map_cons, ih ho]
    rfl
  | case3 r arrivals hother =>
    unfold turns
    split
    · rfl
    · rfl
    · rfl
    · rename_i b chunk rest
      exact absurd rfl (hother b chunk rest)

end Relay

/-- Nothing of the chunks so far is held back by a relay that has done what it did. Their message bytes
are written and flushed, their noise is given, and what is left of them holds no header. -/
structure CaughtUp (o : Outlet) (chunks : List Bytes) (done : List Action) (now : Relay) : Prop where
  performed : (Relay.start o).Performs done now none
  written : now.outlet.written = o.written ++ (Sanitizer.start.feedAll chunks).1.flatMap frameBytes
  flushed : Action.unflushed [] done = []
  flushes : now.outlet.flushes = o.flushes + Relay.flushesFor .start chunks
  noise : now.noise = Messages.noiseRuns (Sanitizer.start.feedAll chunks).1
  accounted : done.flatMap Action.bytes ++ now.sanitizer.pending = chunks.flatten
  headerless : locate now.sanitizer.pending = none

theorem caughtUp_of_performs (o : Outlet) (chunks : List Bytes) (now : Relay)
    (h : (Relay.start o).Performs (Action.ofChunks .start chunks) now none)
    (hstate : now.sanitizer = (Sanitizer.start.feedAll chunks).2) :
    CaughtUp o chunks (Action.ofChunks .start chunks) now := by
  have hlimits := Outlet.written_of_perform h.outlet
  rw [Action.outgoing_ofChunks, Action.count_flush_ofChunks] at hlimits
  have hnoise := h.noise
  rw [Outlet.begun_of_perform h.outlet, Action.discarded_ofChunks] at hnoise
  exact {
    performed := h
    written := hlimits.1
    flushed := Action.unflushed_ofChunks _ _
    flushes := hlimits.2
    noise := hnoise
    accounted := by
      rw [Action.bytes_ofChunks, hstate]
      exact Sanitizer.feedAll_bytes .start chunks
    headerless := by
      rw [hstate, Sanitizer.state_feedAll]
      exact Sanitizer.locate_pending_scan _ }

/-- The actions of a run are those of its turns, and unless the outlet fails there is a turn for every
read. At every read call, whichever it is and whatever it finds, the relay has caught up with the
chunks of all reads before it. -/
theorem relay_catches_up (stream : List Arrival) (o : Outlet) :
    let arrivals := stream.flatMap reads
    let turns := (Relay.start o).turns arrivals
    let fault := (Relay.start o).writeFault arrivals
    (Relay.start o).Performs (turns.flatMap Relay.Turn.actions) (relay stream o).2 fault ∧
      (fault = none → turns.map Relay.Turn.found =
        (delivered arrivals).map .bytes ++ [(failure arrivals).elim (.bytes []) .fault]) ∧
      ∀ before turn after, turns = before ++ turn :: after →
        ∃ chunks, before.map Relay.Turn.found = chunks.map .bytes ∧
          CaughtUp o chunks (before.flatMap Relay.Turn.actions) turn.now := by
  intro arrivals turns fault
  refine ⟨Relay.run_performs _ _, Relay.found_turns _ _, ?_⟩
  intro before turn after hturns
  obtain ⟨chunks, hfound, hdone, hstate, hperforms⟩ := Relay.performs_before arrivals before hturns
  rw [hdone]
  exact ⟨chunks, hfound, caughtUp_of_performs o chunks _ hperforms hstate⟩

example : ((Relay.start (.new none false)).turns
      [.bytes (ascii "xContent-Length: 2\r\n\r\n\x7b"), .bytes (ascii "\x7dyCon"),
        .fault .timedOut]).map Relay.Turn.actions =
    [[.discard (ascii "x"), .write (ascii "Content-Length: 2\r\n\r\n\x7b"), .flush],
      [.write (ascii "\x7d"), .discard (ascii "y"), .flush], []] := by
  decide +kernel

end NoiseGate

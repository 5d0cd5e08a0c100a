import NoiseGate.Relay

/-!
# The stream of messages

The messages of a noisy stream, one at a time. The stream is read only when a message is asked for
and none is ready. A fault is given once, after the messages completed before it, and ends the
stream. A message that is cut off is not given.
-/

namespace NoiseGate

structure Messages where
  /-- What the reads to come will give. -/
  arrivals : List Arrival
  /-- How many reads were made. -/
  reads : Nat
  /-- There is none once the stream has ended or failed. -/
  sanitizer : Option Sanitizer
  assembler : Assembler
  ready : List Bytes
  noise : List Bytes
  events : List Event

namespace Messages

def start (stream : List Arrival) : Messages :=
  ⟨stream.flatMap Arrival.reads, 0, some .start, .empty, [], [], []⟩

def noiseRuns (segments : List Segment) : List Bytes :=
  segments.filterMap fun
    | .noise run => some run
    | .frame _ _ => none

/-- Notes that a read found the end of the stream. -/
def close (m : Messages) (s : Sanitizer) (arrivals : List Arrival) : Messages :=
  { m with
    arrivals := arrivals
    reads := m.reads + 1
    sanitizer := none
    events := m.events ++ s.leftover.events }

/-- Handles the bytes of one read. -/
def take (m : Messages) (s : Sanitizer) (chunk : Bytes) (arrivals : List Arrival) : Messages :=
  let (segments, s) := s.feed chunk
  let (completed, assembler) := m.assembler.pushAll segments
  { m with
    arrivals := arrivals
    reads := m.reads + 1
    sanitizer := some s
    assembler := assembler
    ready := m.ready ++ completed
    noise := m.noise ++ noiseRuns segments }

/-- Asks for the next message. -/
def next (m : Messages) : Option (Except Fault Bytes) × Messages :=
  match m.ready, m.sanitizer, _ : m.arrivals with
  | message :: ready, _, _ => (some (.ok message), { m with ready := ready })
  | [], none, _ => (none, m)
  | [], some s, [] => (none, m.close s [])
  | [], some s, .bytes [] :: arrivals => (none, m.close s arrivals)
  | [], some _, .fault cause :: arrivals =>
    (some (.error cause),
      { m with arrivals := arrivals, reads := m.reads + 1, sanitizer := none })
  | [], some s, .bytes (b :: chunk) :: arrivals => next (m.take s (b :: chunk) arrivals)
termination_by m.arrivals.length
decreasing_by
  simp only [take, List.length_cons, *]
  omega

/-- What is left to give: reads to be made, and for the same reads messages that are ready. -/
def remaining (m : Messages) : Nat × Nat := (m.arrivals.length, m.ready.length)

theorem next_lt (m : Messages) (item : Except Fault Bytes) (h : m.next.1 = some item) :
    Prod.Lex (· < ·) (· < ·) m.next.2.remaining m.remaining := by
  fun_induction next m with
  | case1 m message ready hr => exact Prod.Lex.right _ (by simp [hr])
  | case2 => simp at h
  | case3 => simp at h
  | case4 => simp at h
  | case5 m cause arrivals s h' hr hs => exact Prod.Lex.left _ _ (by simp [h'])
  | case6 m s b chunk arrivals h' hr hs ih =>
    have := ih h
    rw [Prod.lex_def] at this
    refine Prod.Lex.left _ _ ?_
    simp only [remaining, take, h', List.length_cons] at this ⊢
    omega

/-- Asks for messages until there are no more, and gives each with the number of reads made. -/
def items (m : Messages) : List (Except Fault Bytes × Nat) × Messages :=
  match _ : m.next with
  | (none, m) => ([], m)
  | (some item, later) =>
    let (rest, final) := later.items
    ((item, later.reads) :: rest, final)
termination_by m.remaining
decreasing_by
  rename m.next = _ => h
  have := next_lt m item (by rw [h])
  rwa [h] at this

end Messages

end NoiseGate

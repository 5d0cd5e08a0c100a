import NoiseGate.Proofs.Server.WriterTask
import NoiseGate.Server.Session

/-!
# Sessions step by step

In a session, one task reads the editor's frames, sends their bodies to the queue of the server's
writer, and closes the queue in the end. The writer is a task of its own. The relay may end and a
limit of time may pass at any moment, and the server may stop to take what is written to it. A step
is what one of them does without a pause.

The queue is closed twice. The first attempt is made when the editor has left, and is followed by a
wait for the relay. The last one is made in any case, and is followed by a wait for the writer.
-/

namespace NoiseGate.Session

/-- A body for the server: one of the editor, as the editor sent it, or the session's own notice to
exit. -/
inductive Entry
  | editor (body : Bytes)
  | notice
  deriving DecidableEq

namespace Entry

def isEditor : Entry → Bool
  | editor _ => true
  | notice => false

def isExit : Entry → Bool
  | editor body => Forwarded.isExit body
  | notice => true

def outgoing (options : Option Json.Value) : Entry → Bytes
  | editor body => Forwarded.outgoing options body
  | notice => Rpc.exitBody

end Entry

/-- What was accepted by the queue, in order, and what the session remembers of it. -/
structure Traffic where
  accepted : List Entry
  frames : Nat
  sentExit : Bool
  /-- Whether the notice to exit was queued when the editor had left. -/
  exitSentHere : Bool
  deriving DecidableEq

namespace Traffic

def nothing : Traffic := ⟨[], 0, false, false⟩

def told (t : Traffic) : Bool := t.sentExit || t.exitSentHere

def forward (t : Traffic) (body : Bytes) : Traffic :=
  { t with
    accepted := t.accepted ++ [.editor body]
    frames := t.frames + 1
    sentExit := t.sentExit || Forwarded.isExit body }

/-- The last attempt to close the queue does not remember that it queued the notice. -/
def notify (t : Traffic) (last : Bool) : Traffic :=
  { t with
    accepted := t.accepted ++ [.notice]
    exitSentHere := t.exitSentHere || !last }

end Traffic

/-- What an attempt to close the queue sends next. -/
inductive Farewell
  | exit
  | shutdown
  deriving DecidableEq

inductive Stage
  | reading
  | sending (body : Bytes)
  | closing (last : Bool) (next : Farewell)
  | draining
  | joining
  | ended
  deriving DecidableEq

namespace Stage

def close (last told : Bool) : Stage := closing last (if told then .shutdown else .exit)

def afterClosing (last : Bool) : Stage := if last then joining else draining

def listens : Stage → Bool
  | reading => true
  | sending _ => true
  | _ => false

end Stage

structure State where
  stage : Stage
  editor : List Signal
  task : WriterTask
  relaying : Bool
  traffic : Traffic
  deriving DecidableEq

def State.start (stream : List Arrival) (outlet : Outlet) : State :=
  ⟨.reading, stream.flatMap Arrival.signals, .start outlet, true, .nothing⟩

/-- What brings a step about. -/
inductive Cause
  | task
  | relay
  | timeout
  | server
  deriving DecidableEq

inductive Step (options : Option Json.Value) : Cause → State → State → Prop
  | read (s : State) (body : Bytes) (rest : List Signal) (hs : s.stage = .reading)
      (hr : readFrame s.editor = (.ok (some body), rest)) :
      Step options .task s { s with stage := .sending body, editor := rest }
  | readEnd (s : State) (rest : List Signal) (hs : s.stage = .reading)
      (hr : readFrame s.editor = (.ok none, rest)) :
      Step options .task s { s with stage := .close false s.traffic.sentExit, editor := rest }
  | readError (s : State) (e : ReadError) (rest : List Signal) (hs : s.stage = .reading)
      (hr : readFrame s.editor = (.error e, rest)) :
      Step options .task s { s with stage := .close false s.traffic.sentExit, editor := rest }
  | forward (s : State) (body : Bytes) (hs : s.stage = .sending body)
      (hw : s.task.writer.hasRoom = true) :
      Step options .task s { s with
        stage := if Forwarded.isExit body then .close false true else .reading
        task := s.task.accept (.send (Forwarded.outgoing options body))
        traffic := s.traffic.forward body }
  | forwardRefused (s : State) (body : Bytes) (hs : s.stage = .sending body)
      (hw : s.task.writer.running = false) :
      Step options .task s { s with stage := .close false s.traffic.sentExit }
  /-- The relay's end is noticed. A body that waits for room in the queue is dropped. -/
  | leave (s : State) (hs : s.stage.listens = true) (hr : s.relaying = false) :
      Step options .task s { s with stage := .close true s.traffic.told }
  | notify (s : State) (last : Bool) (hs : s.stage = .closing last .exit)
      (hw : s.task.writer.hasRoom = true) :
      Step options .task s { s with
        stage := .closing last .shutdown
        task := s.task.accept (.send Rpc.exitBody)
        traffic := s.traffic.notify last }
  | notifyRefused (s : State) (last : Bool) (hs : s.stage = .closing last .exit)
      (hw : s.task.writer.running = false) :
      Step options .task s { s with stage := .closing last .shutdown }
  | shut (s : State) (last : Bool) (hs : s.stage = .closing last .shutdown)
      (hw : s.task.writer.hasRoom = true) :
      Step options .task s { s with
        stage := .afterClosing last
        task := s.task.accept .shutdown }
  | shutRefused (s : State) (last : Bool) (hs : s.stage = .closing last .shutdown)
      (hw : s.task.writer.running = false) :
      Step options .task s { s with stage := .afterClosing last }
  | giveUp (s : State) (last : Bool) (next : Farewell) (hs : s.stage = .closing last next) :
      Step options .timeout s { s with stage := .afterClosing last }
  | drained (s : State) (hs : s.stage = .draining) (hr : s.relaying = false) :
      Step options .task s { s with stage := .close true s.traffic.told }
  | drainedLate (s : State) (hs : s.stage = .draining) :
      Step options .timeout s { s with stage := .close true s.traffic.told }
  | joined (s : State) (hs : s.stage = .joining) (hw : s.task.writer.running = false) :
      Step options .task s { s with stage := .ended }
  | abort (s : State) (part : Bytes) (hs : s.stage = .joining) (hp : part <+: s.task.unwritten) :
      Step options .timeout s { s with stage := .ended, task := s.task.abort part }
  | writer (s : State) (later : WriterTask) (h : s.task.Step later) :
      Step options .task s { s with task := later }
  | relayEnds (s : State) (hr : s.relaying = true) :
      Step options .relay s { s with relaying := false }
  | limit (s : State) (room : Option Nat) (flushFails : Bool) :
      Step options .server s { s with task := s.task.limit room flushFails }

/-- The states that a session may come to, in any order of steps. -/
def Reachable (options : Option Json.Value) (stream : List Arrival) (outlet : Outlet) :
    State → Prop :=
  Relation.ReflTransGen (fun s t => ∃ cause, Step options cause s t) (.start stream outlet)

variable {options : Option Json.Value} {s t : State} {cause : Cause}

theorem Step.queued_suffix (hstep : Step options cause s t)
    (h : s.task.queued <:+ s.traffic.accepted.map (Entry.outgoing options)) :
    t.task.queued <:+ t.traffic.accepted.map (Entry.outgoing options) := by
  have haccept (e : Entry) : (s.task.accept (.send (e.outgoing options))).queued <:+
      (s.traffic.accepted ++ [e]).map (Entry.outgoing options) := by
    obtain ⟨before, hbefore⟩ := h
    refine ⟨before, ?_⟩
    rw [WriterTask.queued_accept, List.map_append, ← hbefore, List.append_assoc]
    rfl
  cases hstep with
  | forward _ body hs hw => exact haccept (.editor body)
  | notify _ last hs hw => exact haccept .notice
  | shut _ last hs hw =>
    rw [WriterTask.queued_accept]
    exact (List.append_nil _).symm ▸ h
  | abort _ part hs hp => exact (s.task.queued_abort part).trans h
  | writer _ later hw => exact hw.queued_suffix.trans h
  | _ => exact h

theorem Reachable.queued_suffix {stream : List Arrival} {outlet : Outlet}
    (hr : Reachable options stream outlet s) :
    s.task.queued <:+ s.traffic.accepted.map (Entry.outgoing options) := by
  induction hr with
  | refl => exact List.suffix_refl _
  | tail _ hstep ih =>
    obtain ⟨cause, hstep⟩ := hstep
    exact hstep.queued_suffix ih

end NoiseGate.Session

import Mathlib.Data.List.Infix
import NoiseGate.Proofs.Server.WriterTask
import NoiseGate.Proofs.Stream.Room

/-!
# Many senders and one writer

Any number of senders share the queue of a writer. Each waits until there is room for its command, or
gives up, while the writer takes one command at a time and puts the frame out in parts. Whatever the
order of all this, the frames go out whole and in the order in which their bodies were accepted, up to
the first command to shut down or the first write that fails.
-/

namespace NoiseGate

/-- Where a writer is in its work. -/
inductive Phase
  | idle
  /-- Bytes of a frame are still to be written. -/
  | writing (rest : Bytes)
  /-- No more commands are taken, and no more bytes are written. -/
  | left (torn : Bool)
  deriving DecidableEq

def Phase.rest : Phase → Bytes
  | idle => []
  | writing rest => rest
  | left _ => []

/-- A writer and its senders. A sender is idle or has a command that waits for room in the queue. -/
structure SharedWriter where
  writer : Writer
  phase : Phase
  senders : List (Option Command)
  deriving DecidableEq

namespace SharedWriter

/-- What others notice of a step. -/
inductive Move
  | silent
  /-- A sender learns whether its command was queued. -/
  | answer (c : Command) (queued : Bool)
  | take (c : Command)
  /-- A write fails partway. -/
  | fail
  deriving DecidableEq

/-- The commands that were queued, in order. -/
def accepted (moves : List Move) : List Command :=
  moves.filterMap fun
    | .answer c true => some c
    | _ => none

def taken (moves : List Move) : List Command :=
  moves.filterMap fun
    | .take c => some c
    | _ => none

/-- What senders do on their own. -/
inductive Shift : List (Option Command) → List (Option Command) → Prop
  | ask (before after : List (Option Command)) (c : Command) :
      Shift (before ++ none :: after) (before ++ some c :: after)
  | giveUp (before after : List (Option Command)) (c : Command) :
      Shift (before ++ some c :: after) (before ++ none :: after)
  | clone (sender : Option Command) (senders : List (Option Command)) :
      Shift (sender :: senders) (none :: sender :: senders)
  | drop (before after : List (Option Command)) :
      Shift (before ++ none :: after) (before ++ after)

def start (room : Option Nat) (flushFails : Bool) : SharedWriter :=
  ⟨.start (.new room flushFails), .idle, [none]⟩

inductive Step : SharedWriter → Move → SharedWriter → Prop
  | shift (w : Writer) (phase : Phase) (senders later : List (Option Command))
      (h : Shift senders later) : Step ⟨w, phase, senders⟩ .silent ⟨w, phase, later⟩
  | accept (w : Writer) (phase : Phase) (before after : List (Option Command)) (c : Command)
      (h : w.hasRoom = true) :
      Step ⟨w, phase, before ++ some c :: after⟩ (.answer c true)
        ⟨w.accept c, phase, before ++ none :: after⟩
  | refuse (w : Writer) (phase : Phase) (before after : List (Option Command)) (c : Command)
      (h : w.running = false) :
      Step ⟨w, phase, before ++ some c :: after⟩ (.answer c false) ⟨w, phase, before ++ none :: after⟩
  /-- The server changes how much it will take. -/
  | limit (w : Writer) (phase : Phase) (senders : List (Option Command)) (room : Option Nat)
      (flushFails : Bool) :
      Step ⟨w, phase, senders⟩ .silent
        ⟨{ w with outlet := { w.outlet with room := room, flushFails := flushFails } }, phase, senders⟩
  | fetch (body : Bytes) (waiting : List Command) (o : Outlet) (senders : List (Option Command)) :
      Step ⟨⟨.send body :: waiting, true, o⟩, .idle, senders⟩ (.take (.send body))
        ⟨⟨waiting, true, o⟩, .writing (frameOf body), senders⟩
  | stop (waiting : List Command) (o : Outlet) (senders : List (Option Command)) :
      Step ⟨⟨.shutdown :: waiting, true, o⟩, .idle, senders⟩ (.take .shutdown)
        ⟨⟨waiting, true, o⟩, .left false, senders⟩
  /-- Nobody is left to send. -/
  | hangUp (o : Outlet) : Step ⟨⟨[], true, o⟩, .idle, []⟩ .silent ⟨⟨[], true, o⟩, .left false, []⟩
  | put (part rest : Bytes) (waiting : List Command) (o later : Outlet)
      (senders : List (Option Command)) (h : o.write part = (later, none)) :
      Step ⟨⟨waiting, true, o⟩, .writing (part ++ rest), senders⟩ .silent
        ⟨⟨waiting, true, later⟩, .writing rest, senders⟩
  | tear (part rest : Bytes) (waiting : List Command) (o later : Outlet) (cause : Fault)
      (senders : List (Option Command)) (h : o.write part = (later, some cause)) :
      Step ⟨⟨waiting, true, o⟩, .writing (part ++ rest), senders⟩ .fail
        ⟨⟨waiting, true, later⟩, .left true, senders⟩
  | flush (waiting : List Command) (o later : Outlet) (senders : List (Option Command))
      (h : o.flush = (later, none)) :
      Step ⟨⟨waiting, true, o⟩, .writing [], senders⟩ .silent ⟨⟨waiting, true, later⟩, .idle, senders⟩
  | spill (waiting : List Command) (o later : Outlet) (cause : Fault)
      (senders : List (Option Command)) (h : o.flush = (later, some cause)) :
      Step ⟨⟨waiting, true, o⟩, .writing [], senders⟩ .silent
        ⟨⟨waiting, true, later⟩, .left false, senders⟩
  /-- The writer ends. Until then commands may still be queued. -/
  | close (waiting : List Command) (o : Outlet) (torn : Bool) (senders : List (Option Command)) :
      Step ⟨⟨waiting, true, o⟩, .left torn, senders⟩ .silent
        ⟨⟨waiting, false, o⟩, .left torn, senders⟩

inductive Run : SharedWriter → List Move → SharedWriter → Prop
  | nil (s : SharedWriter) : Run s [] s
  | snoc {s t u : SharedWriter} {moves : List Move} {move : Move} (h : Run s moves t)
      (hs : t.Step move u) : Run s (moves ++ [move]) u

/-- The frames of the bodies that some commands send. -/
def framesOf (commands : List Command) : Bytes := (commands.filterMap Command.body?).flatMap frameOf

/-- What holds of a shared writer that has accepted and taken some commands. -/
structure Sound (s : SharedWriter) (accepted taken : List Command) : Prop where
  queue : accepted = taken ++ s.writer.waiting
  room : s.writer.waiting.length ≤ Writer.capacity
  written : s.writer.outlet.written <+: framesOf taken
  whole : s.phase ≠ .left true → s.writer.outlet.written ++ s.phase.rest = framesOf taken
  last : .shutdown ∈ taken → (∃ sends, taken = sends ++ [.shutdown] ∧ .shutdown ∉ sends) ∧
    s.phase = .left false
  ended : s.writer.running = false → ∃ torn, s.phase = .left torn

variable {s t later : SharedWriter} {move : Move} {moves more : List Move}

theorem framesOf_append (first second : List Command) :
    framesOf (first ++ second) = framesOf first ++ framesOf second := by
  rw [framesOf, List.filterMap_append, List.flatMap_append]
  rfl

theorem accepted_append (first second : List Move) :
    accepted (first ++ second) = accepted first ++ accepted second := List.filterMap_append

def Busy (s : SharedWriter) : Prop := ∀ torn, s.phase ≠ .left torn

variable {a b : List Command}

theorem Sound.shutdown_notMem (hs : s.Sound a b) (hb : s.Busy) : .shutdown ∉ b := by
  intro hmem
  exact hb false (hs.last hmem).2

theorem Sound.accept (hs : s.Sound a b) (c : Command) (hroom : s.writer.hasRoom = true)
    (senders : List (Option Command)) : Sound ⟨s.writer.accept c, s.phase, senders⟩ (a ++ [c]) b := by
  refine ⟨?_, ?_, hs.written, hs.whole, hs.last, hs.ended⟩
  · rw [hs.queue, List.append_assoc]
    rfl
  · simp only [Writer.hasRoom, Bool.and_eq_true, decide_eq_true_eq] at hroom
    simp only [Writer.accept, List.length_append, List.length_singleton]
    exact hroom.2

theorem Sound.take {c : Command} {waiting : List Command} (hs : s.Sound a b) (hp : s.phase = .idle)
    (hw : s.writer.waiting = c :: waiting) (hr : s.writer.running = true) {phase : Phase}
    (hrest : phase.rest = framesOf [c]) (hlast : c = .shutdown → phase = .left false) :
    Sound ⟨{ s.writer with waiting := waiting }, phase, s.senders⟩ a (b ++ [c]) := by
  have hbusy : s.Busy := by
    intro torn h
    rw [hp] at h
    cases h
  have hwhole := hs.whole (hbusy true)
  rw [hp] at hwhole
  have hall : s.writer.outlet.written ++ framesOf [c] = framesOf (b ++ [c]) := by
    rw [framesOf_append, ← hwhole, Phase.rest, List.append_nil]
  constructor
  · rw [hs.queue, hw, List.append_assoc]
    rfl
  · have hroom := hs.room
    rw [hw] at hroom
    exact Nat.le_of_succ_le hroom
  · exact ⟨_, hall⟩
  · intro _
    rw [← hall, ← hrest]
  · intro hmem
    have hnot := hs.shutdown_notMem hbusy
    rcases List.mem_append.mp hmem with hmem | hmem
    · exact absurd hmem hnot
    · obtain rfl := List.mem_singleton.mp hmem
      exact ⟨⟨b, rfl, hnot⟩, hlast rfl⟩
  · intro h
    rw [show s.writer.running = false from h] at hr
    cases hr

theorem Sound.work {o : Outlet} {phase : Phase} (hs : s.Sound a b) (hb : s.Busy)
    (hwritten : o.written <+: framesOf b)
    (hwhole : phase ≠ .left true → o.written ++ phase.rest = framesOf b) :
    Sound ⟨{ s.writer with outlet := o }, phase, s.senders⟩ a b := by
  refine ⟨hs.queue, hs.room, hwritten, hwhole, ?_, ?_⟩
  · intro hmem
    exact absurd hmem (hs.shutdown_notMem hb)
  · intro hr
    obtain ⟨torn, hp⟩ := hs.ended hr
    exact absurd hp (hb torn)

theorem Run.append {u : SharedWriter} (h : Run s moves t) (hm : Run t more u) :
    Run s (moves ++ more) u := by
  induction hm with
  | nil => rwa [List.append_nil]
  | snoc hm hs ih =>
    rw [← List.append_assoc]
    exact ih.snoc hs

theorem Step.of_ended {torn : Bool} (h : s.Step move later) (hr : s.writer.running = false)
    (hp : s.phase = .left torn) :
    later.writer.running = false ∧ later.phase = .left torn ∧
      later.writer.outlet.written = s.writer.outlet.written ∧ accepted [move] = [] := by
  cases h with
  | shift w phase senders after hshift => exact ⟨hr, hp, rfl, rfl⟩
  | accept w phase before after c hroom =>
    simp only [Writer.hasRoom, Bool.and_eq_true] at hroom
    exact absurd hroom.1 (Bool.eq_false_iff.mp hr)
  | refuse w phase before after c hr' => exact ⟨hr, hp, rfl, rfl⟩
  | limit w phase senders room flushFails => exact ⟨hr, hp, rfl, rfl⟩
  | fetch => cases hr
  | stop => cases hr
  | hangUp => cases hr
  | put => cases hr
  | tear => cases hr
  | flush => cases hr
  | spill => cases hr
  | close => cases hr

theorem Run.of_ended {torn : Bool} (h : Run s more later) (hr : s.writer.running = false)
    (hp : s.phase = .left torn) :
    later.writer.running = false ∧ later.phase = .left torn ∧
      later.writer.outlet.written = s.writer.outlet.written ∧ accepted more = [] := by
  induction h with
  | nil => exact ⟨hr, hp, rfl, rfl⟩
  | snoc h hs ih =>
    obtain ⟨hrunning, hphase, hwritten, hnone⟩ := ih
    obtain ⟨hrunning', hphase', hwritten', hnone'⟩ := hs.of_ended hrunning hphase
    refine ⟨hrunning', hphase', hwritten'.trans hwritten, ?_⟩
    rw [accepted_append, hnone, hnone']
    rfl

end SharedWriter

namespace Writer

theorem take_running (w : Writer) (h : w.take.running = true) :
    w.running = true ∧ w.take.waiting = w.waiting.tail := by
  obtain ⟨waiting, running, o⟩ := w
  match running, waiting with
  | false, waiting => cases h
  | true, [] => exact ⟨rfl, rfl⟩
  | true, .shutdown :: rest => cases h
  | true, .send body :: rest =>
    rcases hwrite : o.writeFrame body with ⟨next, _ | e⟩
    · simp [take, hwrite]
    · simp [take, hwrite] at h

theorem foldl_take_running (w : Writer) (commands : List Command)
    (h : (commands.foldl (fun w _ => w.take) w).running = true) :
    w.running = true ∧
      (commands.foldl (fun w _ => w.take) w).waiting = w.waiting.drop commands.length := by
  induction commands generalizing w with
  | nil => exact ⟨h, rfl⟩
  | cons c commands ih =>
    obtain ⟨hrunning, hwaiting⟩ := ih w.take h
    obtain ⟨hbefore, htail⟩ := w.take_running hrunning
    refine ⟨hbefore, ?_⟩
    rw [List.foldl_cons, hwaiting, htail, List.drop_tail, List.length_cons]

end Writer

namespace SharedWriter

variable {s t later : SharedWriter} {move : Move} {moves more : List Move}

end SharedWriter

end NoiseGate

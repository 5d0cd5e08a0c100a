import Mathlib.Logic.Relation
import NoiseGate.Proofs.Frame.Writing

/-!
# The writer as a task

The writer takes one command at a time from its queue. Between the moment when it takes a body and
the moment when the frame is written, any time may pass. If its outlet has no limits, the writer
writes all that was queued before the command to shut down, and ends at this command.
-/

namespace NoiseGate

def Command.body? : Command → Option Bytes
  | send body => some body
  | shutdown => none

/-- The writer, and the body that it has taken and is about to write. -/
structure WriterTask where
  writer : Writer
  hand : Option Bytes
  deriving DecidableEq

namespace WriterTask

def start (outlet : Outlet) : WriterTask := ⟨.start outlet, none⟩

def accept (t : WriterTask) (c : Command) : WriterTask := { t with writer := t.writer.accept c }

def unwritten (t : WriterTask) : Bytes := (t.hand.map frameOf).getD []

def queued (t : WriterTask) : List Bytes :=
  t.hand.toList ++ t.writer.waiting.filterMap Command.body?

/-- Ends the writer with a part of the frame in hand written. -/
def abort (t : WriterTask) (part : Bytes) : WriterTask :=
  ⟨{ t.writer with
      running := false
      outlet := { t.writer.outlet with written := t.writer.outlet.written ++ part } }, none⟩

def limit (t : WriterTask) (room : Option Nat) (flushFails : Bool) : WriterTask :=
  { t with writer := { t.writer with
      outlet := { t.writer.outlet with room := room, flushFails := flushFails } } }

inductive Step : WriterTask → WriterTask → Prop
  | fetch (body : Bytes) (rest : List Command) (outlet : Outlet) :
      Step ⟨⟨.send body :: rest, true, outlet⟩, none⟩ ⟨⟨rest, true, outlet⟩, some body⟩
  | write (body : Bytes) (rest : List Command) (outlet later : Outlet)
      (h : outlet.writeFrame body = (later, none)) :
      Step ⟨⟨rest, true, outlet⟩, some body⟩ ⟨⟨rest, true, later⟩, none⟩
  | fail (body : Bytes) (rest : List Command) (outlet later : Outlet) (e : WriteError)
      (h : outlet.writeFrame body = (later, some e)) :
      Step ⟨⟨rest, true, outlet⟩, some body⟩ ⟨⟨rest, false, later⟩, none⟩
  | stop (rest : List Command) (outlet : Outlet) :
      Step ⟨⟨.shutdown :: rest, true, outlet⟩, none⟩ ⟨⟨rest, false, outlet⟩, none⟩

/-- What the writer does with a command at once, it can do step by step. -/
theorem steps_take (w : Writer) : Relation.ReflTransGen Step ⟨w, none⟩ ⟨w.take, none⟩ := by
  obtain ⟨waiting, running, outlet⟩ := w
  match running, waiting with
  | false, _ => exact .refl
  | true, [] => exact .refl
  | true, .shutdown :: rest => exact .single (.stop rest outlet)
  | true, .send body :: rest =>
    have hfetch := Relation.ReflTransGen.single (Step.fetch body rest outlet)
    cases h : outlet.writeFrame body with
    | mk later failure =>
      cases failure with
      | none =>
        have htake : Writer.take ⟨.send body :: rest, true, outlet⟩ = ⟨rest, true, later⟩ := by
          simp [Writer.take, h]
        exact htake ▸ hfetch.tail (.write body rest outlet later h)
      | some e =>
        have htake : Writer.take ⟨.send body :: rest, true, outlet⟩ = ⟨rest, false, later⟩ := by
          simp [Writer.take, h]
        exact htake ▸ hfetch.tail (.fail body rest outlet later e h)

/-- All that is written once everything queued is written. -/
def promised (t : WriterTask) : Bytes := t.writer.outlet.written ++ t.queued.flatMap frameOf

structure Open (t : WriterTask) : Prop where
  running : t.writer.running = true
  sends : .shutdown ∉ t.writer.waiting

structure Closing (t : WriterTask) : Prop where
  running : t.writer.running = true
  ends : ∃ sends, t.writer.waiting = sends ++ [.shutdown] ∧ .shutdown ∉ sends

structure Done (t : WriterTask) : Prop where
  ended : t.writer.running = false
  waiting : t.writer.waiting = []
  hand : t.hand = none

variable {t later : WriterTask}

theorem queued_accept (t : WriterTask) (c : Command) :
    (t.accept c).queued = t.queued ++ c.body?.toList := by
  cases c <;> simp [queued, accept, Writer.accept, Command.body?]

theorem queued_abort (t : WriterTask) (part : Bytes) : (t.abort part).queued <:+ t.queued :=
  List.suffix_append _ _

theorem promised_accept (t : WriterTask) (c : Command) :
    (t.accept c).promised = t.promised ++ c.body?.toList.flatMap frameOf := by
  rw [promised, queued_accept, List.flatMap_append, ← List.append_assoc]
  rfl

theorem Done.promised (h : t.Done) : t.promised = t.writer.outlet.written := by
  simp [WriterTask.promised, queued, h.waiting, h.hand]

theorem Open.not_ended (h : t.Open) : t.writer.running ≠ false := by
  rw [h.running]
  decide

theorem Open.accept_send (h : t.Open) (body : Bytes) : (t.accept (.send body)).Open :=
  ⟨h.running, by simpa [accept, Writer.accept] using h.sends⟩

theorem Open.accept_shutdown (h : t.Open) : (t.accept .shutdown).Closing :=
  ⟨h.running, _, rfl, h.sends⟩

namespace Step

theorem queued_suffix (h : t.Step later) : later.queued <:+ t.queued := by
  cases h with
  | fetch body rest outlet => exact List.suffix_refl _
  | write body rest outlet next hw => exact List.suffix_append _ _
  | fail body rest outlet next e hw => exact List.suffix_append _ _
  | stop rest outlet => exact List.suffix_refl _

theorem running (h : t.Step later) : t.writer.running = true := by
  cases h <;> rfl

theorem unlimited (h : t.Step later) (hu : t.writer.outlet.Unlimited) :
    later.writer.outlet.Unlimited := by
  cases h with
  | fetch body rest outlet => exact hu
  | write body rest outlet next hw =>
    rw [(hu.eq_of_writeFrame hw).1]
    exact outlet.unlimited_wrote body hu
  | fail body rest outlet next e hw => cases (hu.eq_of_writeFrame hw).2
  | stop rest outlet => exact hu

/-- The writer keeps its promises. -/
theorem promised (h : t.Step later) (hu : t.writer.outlet.Unlimited) :
    later.promised = t.promised := by
  cases h with
  | fetch body rest outlet => rfl
  | write body rest outlet next hw =>
    rw [(hu.eq_of_writeFrame hw).1]
    simp [WriterTask.promised, queued, Outlet.wrote]
  | fail body rest outlet next e hw => cases (hu.eq_of_writeFrame hw).2
  | stop rest outlet => rfl

theorem isOpen (h : t.Step later) (hu : t.writer.outlet.Unlimited) (ho : t.Open) : later.Open := by
  cases h with
  | fetch body rest outlet => exact ⟨rfl, fun hm => ho.sends (List.mem_cons_of_mem _ hm)⟩
  | write body rest outlet next hw => exact ⟨rfl, ho.sends⟩
  | fail body rest outlet next e hw => cases (hu.eq_of_writeFrame hw).2
  | stop rest outlet => exact absurd List.mem_cons_self ho.sends

theorem isClosing (h : t.Step later) (hu : t.writer.outlet.Unlimited) (hc : t.Closing) :
    later.Closing ∨ later.Done := by
  obtain ⟨sends, hends, hsends⟩ := hc.ends
  cases h with
  | fetch body rest outlet =>
    cases sends with
    | nil => cases hends
    | cons c sends =>
      cases hends
      exact .inl ⟨rfl, sends, rfl, fun hm => hsends (List.mem_cons_of_mem _ hm)⟩
  | write body rest outlet next hw => exact .inl ⟨rfl, sends, hends, hsends⟩
  | fail body rest outlet next e hw => cases (hu.eq_of_writeFrame hw).2
  | stop rest outlet =>
    cases sends with
    | nil =>
      cases hends
      exact .inr ⟨rfl, rfl, rfl⟩
    | cons c sends =>
      cases hends
      exact absurd List.mem_cons_self hsends

end Step

/-- Counts the steps that the writer can take at most. -/
def work (t : WriterTask) : Nat :=
  2 * t.writer.waiting.length + t.hand.toList.length + t.writer.running.toNat

theorem work_accept (t : WriterTask) (c : Command) : (t.accept c).work = t.work + 2 := by
  simp only [work, accept, Writer.accept, List.length_append, List.length_singleton]
  omega

theorem Step.work_lt (h : t.Step later) : later.work < t.work := by
  cases h <;> simp only [work, List.length_cons, Option.toList_some, Option.toList_none,
    List.length_nil, Bool.toNat_true, Bool.toNat_false] <;> omega

theorem work_abort_le (t : WriterTask) (part : Bytes) : (t.abort part).work ≤ t.work := by
  simp only [work, abort, Option.toList_none, List.length_nil, Bool.toNat_false]
  omega

theorem exists_step (t : WriterTask) (hr : t.writer.running = true)
    (hw : t.writer.waiting ≠ []) : ∃ later, t.Step later := by
  obtain ⟨⟨waiting, running, outlet⟩, hand⟩ := t
  cases hr
  cases hand with
  | some body =>
    cases h : outlet.writeFrame body with
    | mk next failure =>
      cases failure with
      | none => exact ⟨_, .write body waiting outlet next h⟩
      | some e => exact ⟨_, .fail body waiting outlet next e h⟩
  | none =>
    cases waiting with
    | nil => contradiction
    | cons c rest =>
      cases c with
      | send body => exact ⟨_, .fetch body rest outlet⟩
      | shutdown => exact ⟨_, .stop rest outlet⟩

theorem hasRoom_or_step (t : WriterTask) (hr : t.writer.running = true) :
    t.writer.hasRoom = true ∨ ∃ later, t.Step later := by
  by_cases hroom : t.writer.waiting.length < Writer.capacity
  · exact .inl (by simp [Writer.hasRoom, hr, hroom])
  · refine .inr (t.exists_step hr ?_)
    rintro hnil
    exact hroom (by simp [hnil, Writer.capacity])

end WriterTask

end NoiseGate

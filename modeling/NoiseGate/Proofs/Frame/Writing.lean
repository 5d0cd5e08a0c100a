import NoiseGate.Server.Writer

/-!
# Writing without limits

An outlet without limits takes every frame. A writer with such an outlet stops only at the command
to shut down, and until then it has promised what it has written and what waits in its queue.
-/

namespace NoiseGate

namespace Outlet

/-- Nothing that is written to the outlet fails. -/
structure Unlimited (o : Outlet) : Prop where
  room : o.room = none
  flush : o.flushFails = false

theorem unlimited_new : (new none false).Unlimited := ⟨rfl, rfl⟩

def wrote (o : Outlet) (body : Bytes) : Outlet :=
  { o with written := o.written ++ frameOf body, flushes := o.flushes + 1 }

theorem unlimited_wrote (o : Outlet) (body : Bytes) (ho : o.Unlimited) :
    (o.wrote body).Unlimited := ⟨ho.room, ho.flush⟩

theorem writeFrame_of_unlimited (o : Outlet) (body : Bytes) (ho : o.Unlimited) :
    o.writeFrame body = (o.wrote body, none) := by
  obtain ⟨room, flushFails, written, flushes⟩ := o
  obtain ⟨rfl, rfl⟩ := ho
  simp [writeFrame, write, flush, wrote, frameOf]

theorem Unlimited.eq_of_writeFrame {o next : Outlet} {body : Bytes} {failure : Option WriteError}
    (ho : o.Unlimited) (h : o.writeFrame body = (next, failure)) :
    next = o.wrote body ∧ failure = none := by
  rw [o.writeFrame_of_unlimited body ho] at h
  cases h
  exact ⟨rfl, rfl⟩

theorem unlimited_foldl_wrote (o : Outlet) (bodies : List Bytes) (ho : o.Unlimited) :
    (bodies.foldl wrote o).Unlimited := by
  induction bodies generalizing o with
  | nil => exact ho
  | cons body bodies ih => exact ih (o.wrote body) (o.unlimited_wrote body ho)

theorem foldl_wrote_written (o : Outlet) (bodies : List Bytes) :
    (bodies.foldl wrote o).written = o.written ++ bodies.flatMap frameOf := by
  induction bodies generalizing o with
  | nil => simp
  | cons body bodies ih =>
    rw [List.foldl_cons, ih, List.flatMap_cons, ← List.append_assoc]
    rfl

end Outlet

namespace Writer

private theorem drain_send (body : Bytes) (o : Outlet) (ho : o.Unlimited) :
    (⟨[.send body], true, o⟩ : Writer).drain = ⟨[], true, o.wrote body⟩ := by
  simp [drain, take, o.writeFrame_of_unlimited body ho]

private theorem send_of_drain (w : Writer) (o : Outlet) (body : Bytes)
    (hw : w.drain = ⟨[], true, o⟩) : w.send body = (⟨[.send body], true, o⟩, true) := by
  simp [send, hw, hasRoom, capacity, accept]

/-- A writer that keeps up writes the frames of all bodies in order. -/
theorem drain_sendAll (w : Writer) (o : Outlet) (bodies : List Bytes) (ho : o.Unlimited)
    (hw : w.drain = ⟨[], true, o⟩) :
    (w.sendAll bodies).drain = ⟨[], true, bodies.foldl Outlet.wrote o⟩ := by
  induction bodies generalizing w o with
  | nil => exact hw
  | cons body bodies ih =>
    have hsend := send_of_drain w o body hw
    refine ih (w.send body).1 (o.wrote body) (o.unlimited_wrote body ho) ?_
    rw [hsend, drain_send body o ho]

private theorem drain_shutdown (o : Outlet) :
    ((⟨[], true, o⟩ : Writer).accept .shutdown).drain = ⟨[], false, o⟩ := rfl

theorem finish_written (w : Writer) (o : Outlet) (exit : Bool) (ho : o.Unlimited)
    (hw : w.drain = ⟨[], true, o⟩) :
    (w.finish exit).1.outlet.written = o.written ++ if exit then frameOf Rpc.exitBody else [] := by
  cases exit with
  | false =>
    have hfinish : (w.finish false).1 = (w.drain.accept .shutdown).drain := rfl
    rw [hfinish, hw, drain_shutdown]
    exact (List.append_nil _).symm
  | true =>
    have hfinish : (w.finish true).1 = ((w.send Rpc.exitBody).1.drain.accept .shutdown).drain := rfl
    rw [hfinish, send_of_drain w o _ hw, drain_send _ o ho, drain_shutdown]
    rfl

end Writer

end NoiseGate

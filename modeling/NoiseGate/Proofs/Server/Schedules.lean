import NoiseGate.Proofs.Server.Senders

/-!
# Schedules of a shared writer

A writer that keeps up takes each command at once and answers a sender at once. That is one of the
orders in which the steps of a shared writer may come.
-/

namespace NoiseGate

namespace Writer

theorem hasRoom_drain (w : Writer) (h : w.drain.running = true) : w.drain.hasRoom = true := by
  have hnil : w.drain.waiting = [] := by
    rw [drain, (w.foldl_take_running w.waiting h).2, List.drop_length]
  simp [hasRoom, h, hnil, capacity]

end Writer

namespace SharedWriter

variable {s t later : SharedWriter} {move : Move}

/-- There is a way from one state to the other on which nothing is queued. -/
def Works (s later : SharedWriter) : Prop := ∃ moves, Run s moves later ∧ accepted moves = []

theorem works_refl (s : SharedWriter) : s.Works s := ⟨[], .nil s, rfl⟩

theorem Works.trans (h : s.Works t) (h' : t.Works later) : s.Works later := by
  obtain ⟨moves, hrun, hnone⟩ := h
  obtain ⟨more, hrun', hnone'⟩ := h'
  refine ⟨_, hrun.append hrun', ?_⟩
  rw [accepted_append, hnone, hnone']
  rfl

theorem Step.works (h : s.Step move later) (hm : accepted [move] = []) : s.Works later :=
  ⟨_, (Run.nil s).snoc h, hm⟩

def phaseBehind : Option WriteError → Phase
  | none => .idle
  | some (.header _) => .left true
  | some (.body _) => .left true
  | some (.flush _) => .left false

theorem works_writeFrame (o : Outlet) (body : Bytes) (waiting : List Command)
    (senders : List (Option Command)) :
    Works ⟨⟨waiting, true, o⟩, .writing (frameOf body), senders⟩
      ⟨⟨waiting, true, (o.writeFrame body).1⟩, phaseBehind (o.writeFrame body).2, senders⟩ := by
  have hlast : body = body ++ [] := (List.append_nil body).symm
  rcases hheader : o.write (headerFor body) with ⟨behind, _ | cause⟩
  · have hput := (Step.put (headerFor body) body waiting o behind senders hheader).works rfl
    refine hput.trans ?_
    rcases hbody : behind.write body with ⟨later, _ | cause⟩
    · have hrest := (Step.put body [] waiting behind later senders hbody).works rfl
      rw [← hlast] at hrest
      refine hrest.trans ?_
      rcases hflush : later.flush with ⟨last, _ | cause⟩ <;>
        simp only [Outlet.writeFrame, hheader, hbody, hflush]
      · exact (Step.flush waiting later last senders hflush).works rfl
      · exact (Step.spill waiting later last cause senders hflush).works rfl
    · have htear := (Step.tear body [] waiting behind later cause senders hbody).works rfl
      rw [← hlast] at htear
      simp only [Outlet.writeFrame, hheader, hbody]
      exact htear
  · simp only [Outlet.writeFrame, hheader]
    exact (Step.tear (headerFor body) body waiting o behind cause senders hheader).works rfl

/-- The writer is between two commands, or has ended. -/
def Between (s : SharedWriter) : Prop := s.phase = .idle ∨ s.writer.running = false

theorem works_take (s : SharedWriter) (hs : s.Between) :
    ∃ phase, s.Works ⟨s.writer.take, phase, s.senders⟩ ∧
      Between ⟨s.writer.take, phase, s.senders⟩ := by
  obtain ⟨⟨waiting, running, o⟩, phase, senders⟩ := s
  match running, waiting with
  | false, waiting => exact ⟨phase, works_refl _, .inr rfl⟩
  | true, [] => exact ⟨phase, works_refl _, hs⟩
  | true, .shutdown :: rest =>
    obtain rfl | hended := hs
    · have hstop := (Step.stop rest o senders).works rfl
      have hclose := (Step.close rest o false senders).works rfl
      exact ⟨_, hstop.trans hclose, .inr rfl⟩
    · cases hended
  | true, .send body :: rest =>
    obtain rfl | hended := hs
    · have hfetch := (Step.fetch body rest o senders).works rfl
      have hframe := hfetch.trans (works_writeFrame o body rest senders)
      rcases hwrite : o.writeFrame body with ⟨later, _ | e⟩ <;> rw [hwrite] at hframe
      · have htake : Writer.take ⟨.send body :: rest, true, o⟩ = ⟨rest, true, later⟩ := by
          simp [Writer.take, hwrite]
        rw [htake]
        exact ⟨.idle, hframe, .inl rfl⟩
      · have htake : Writer.take ⟨.send body :: rest, true, o⟩ = ⟨rest, false, later⟩ := by
          simp [Writer.take, hwrite]
        obtain ⟨torn, hphase⟩ : ∃ torn, phaseBehind (some e) = .left torn := by
          cases e <;> exact ⟨_, rfl⟩
        have hclose := (Step.close rest later torn senders).works rfl
        rw [hphase] at hframe
        rw [htake]
        exact ⟨.left torn, hframe.trans hclose, .inr rfl⟩
    · cases hended

theorem works_drain (s : SharedWriter) (hs : s.Between) :
    ∃ phase, s.Works ⟨s.writer.drain, phase, s.senders⟩ ∧
      Between ⟨s.writer.drain, phase, s.senders⟩ := by
  rw [Writer.drain]
  generalize s.writer.waiting = commands
  induction commands generalizing s with
  | nil => exact ⟨s.phase, s.works_refl, hs⟩
  | cons c commands ih =>
    obtain ⟨phase, hworks, hbetween⟩ := s.works_take hs
    obtain ⟨last, hrest, hlast⟩ := ih _ hbetween
    exact ⟨last, hworks.trans hrest, hlast⟩

/-- What a send to a writer that keeps up does at once, a sender and the writer can do step by step, and
the sender learns its result. -/
theorem run_send (s : SharedWriter) (hs : s.Between) (before after : List (Option Command))
    (hidle : s.senders = before ++ none :: after) (body : Bytes) :
    ∃ moves phase, Run s (moves ++ [.answer (.send body) (s.writer.send body).2])
        ⟨(s.writer.send body).1, phase, s.senders⟩ ∧ accepted moves = [] := by
  obtain ⟨writer, phase, senders⟩ := s
  cases hidle
  have hask := (Step.shift writer phase _ _ (.ask before after (.send body))).works rfl
  obtain ⟨last, hdrain, -⟩ := works_drain ⟨writer, phase, before ++ some (.send body) :: after⟩ hs
  obtain ⟨moves, hrun, hnone⟩ := hask.trans hdrain
  refine ⟨moves, last, ?_, hnone⟩
  cases hroom : writer.drain.hasRoom with
  | true =>
    simp only [Writer.send, hroom, if_true]
    exact hrun.snoc (.accept writer.drain last before after (.send body) hroom)
  | false =>
    have hended : writer.drain.running = false := by
      rw [← Bool.not_eq_true]
      intro hrunning
      rw [writer.hasRoom_drain hrunning] at hroom
      cases hroom
    simp only [Writer.send, hroom]
    exact hrun.snoc (.refuse writer.drain last before after (.send body) hended)

end SharedWriter

end NoiseGate

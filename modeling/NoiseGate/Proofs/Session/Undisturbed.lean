import NoiseGate.Proofs.Session.Exit
import NoiseGate.Proofs.Session.Run

/-!
# Undisturbed sessions

A session is undisturbed if the server takes all that is written to it, its output does not end
before its input does, and no limit of time passes. In every order of its steps such a session
queues what a whole session sends, writes all of it, and comes to an end.
-/

namespace NoiseGate.Session

/-- What a session sends for these bodies of an editor. -/
def plan (bodies : List Bytes) : List Entry :=
  bodies.map .editor ++ if bodies.any Forwarded.isExit then [] else [.notice]

theorem plan_cons (body : Bytes) (bodies : List Bytes) :
    plan (if Forwarded.isExit body then [body] else body :: bodies) =
      .editor body :: if Forwarded.isExit body then [] else plan bodies := by
  cases h : Forwarded.isExit body <;> simp [plan, h]

theorem flatMap_plan (options : Option Json.Value) (bodies : List Bytes) :
    (plan bodies).flatMap (fun e => frameOf (e.outgoing options)) =
      Forwarded.inputFor options bodies := by
  rw [plan, List.flatMap_append, List.flatMap_map, Forwarded.inputFor]
  cases bodies.any Forwarded.isExit with
  | true => rfl
  | false => simp [Entry.outgoing]

theorem any_isExit_plan (bodies : List Bytes) : (plan bodies).any Entry.isExit = true := by
  cases h : bodies.any Forwarded.isExit with
  | false => simp [plan, h, Entry.isExit]
  | true =>
    rw [plan, List.any_append, List.any_map]
    exact Bool.or_eq_true_iff.mpr (.inl h)

theorem countP_isEditor_plan (bodies : List Bytes) :
    (plan bodies).countP Entry.isEditor = bodies.length := by
  have hnotice : (if bodies.any Forwarded.isExit then [] else [Entry.notice]).countP
      Entry.isEditor = 0 := by
    split <;> rfl
  rw [plan, List.countP_append, hnotice, List.countP_map]
  exact congrFun List.countP_true bodies

theorem any_editorExit_plan (bodies : List Bytes) :
    ((plan bodies).any fun e => e.isEditor && e.isExit) = bodies.any Forwarded.isExit := by
  have hnotice : (if bodies.any Forwarded.isExit then [] else [Entry.notice]).any
      (fun e => e.isEditor && e.isExit) = false := by
    split <;> rfl
  rw [plan, List.any_append, hnotice, List.any_map, Bool.or_false]
  rfl

def State.remaining (s : State) : List Entry :=
  match s.stage with
  | .reading => plan (editorBodies s.editor)
  | .sending body =>
    .editor body :: if Forwarded.isExit body then [] else plan (editorBodies s.editor)
  | .closing _ .exit => [.notice]
  | _ => []

/-- How far the writer of an undisturbed session is in a stage. -/
def Stage.Keeps : Stage → WriterTask → Prop
  | reading, t => t.Open
  | sending _, t => t.Open
  | closing false _, t => t.Open
  | draining, t => t.Closing ∨ t.Done
  | closing true .exit, _ => False
  | closing true .shutdown, t => t.Done
  | joining, t => t.Done
  | ended, t => t.Done

theorem Stage.Keeps.step {stage : Stage} {task later : WriterTask} (h : stage.Keeps task)
    (hw : task.Step later) (hu : task.writer.outlet.Unlimited) : stage.Keeps later := by
  have hdone : ¬ task.Done := by
    intro hd
    have hrunning := hw.running
    rw [hd.ended] at hrunning
    cases hrunning
  match stage with
  | .reading => exact hw.isOpen hu h
  | .sending _ => exact hw.isOpen hu h
  | .closing false _ => exact hw.isOpen hu h
  | .draining => exact hw.isClosing hu (h.resolve_right hdone)
  | .closing true .shutdown => exact absurd h hdone
  | .joining => exact absurd h hdone
  | .ended => exact absurd h hdone

/-- What holds all through an undisturbed session with these bodies of an editor. -/
structure Faithful (options : Option Json.Value) (bodies : List Bytes) (s : State) : Prop where
  orderly : Orderly s.stage s.traffic
  planned : s.traffic.accepted ++ s.remaining = plan bodies
  unlimited : s.task.writer.outlet.Unlimited
  promised : s.task.promised = s.traffic.accepted.flatMap fun e => frameOf (e.outgoing options)
  keeps : s.stage.Keeps s.task
  relaying : s.task.writer.running = true → s.relaying = true

/-- Whether a cause leaves a session undisturbed. -/
def Cause.Undisturbed (s : State) : Cause → Prop
  | task => True
  | relay => s.task.writer.running = false
  | timeout => False
  | server => False

def UndisturbedStep (options : Option Json.Value) (s t : State) : Prop :=
  ∃ cause : Cause, cause.Undisturbed s ∧ Step options cause s t

variable {options : Option Json.Value} {bodies : List Bytes} {s t : State} {cause : Cause}

namespace Faithful

theorem start (options : Option Json.Value) (stream : List Arrival) :
    Faithful options (editorBodies (stream.flatMap Arrival.signals))
      (.start stream (.new none false)) :=
  ⟨.nothing, rfl, Outlet.unlimited_new, rfl, ⟨rfl, List.not_mem_nil⟩, fun _ => rfl⟩

theorem isOpen (h : Faithful options bodies s) (hs : s.stage.listens = true) : s.task.Open := by
  have hkeeps := h.keeps
  cases hstage : s.stage with
  | reading => rwa [hstage] at hkeeps
  | sending body => rwa [hstage] at hkeeps
  | _ => simp [hstage, Stage.listens] at hs

theorem goes_on (h : Faithful options bodies s) (hr : s.task.writer.running = true) :
    s.relaying ≠ false := by
  rw [h.relaying hr]
  decide

theorem promised_accept (h : Faithful options bodies s) (e : Entry) :
    (s.task.accept (.send (e.outgoing options))).promised =
      (s.traffic.accepted ++ [e]).flatMap fun e => frameOf (e.outgoing options) := by
  rw [WriterTask.promised_accept, h.promised, List.flatMap_append]
  simp [Command.body?]

theorem close (h : Faithful options bodies s) (rest : List Signal) (hs : s.stage = .reading)
    (hb : editorBodies s.editor = []) :
    s.traffic.accepted ++ State.remaining
        { s with stage := .close false s.traffic.sentExit, editor := rest } = plan bodies ∧
      (Stage.close false s.traffic.sentExit).Keeps s.task := by
  have hlistens : s.stage.listens = true := by rw [hs]; rfl
  have hplanned := h.planned
  rw [State.remaining, hs] at hplanned
  simp only [hb] at hplanned
  have hsent := (h.orderly.flags hlistens).1
  rw [hsent]
  exact ⟨hplanned, h.isOpen hlistens⟩

/-- An undisturbed step keeps to the plan. -/
theorem step (h : Faithful options bodies s) (hc : cause.Undisturbed s)
    (hstep : Step options cause s t) : Faithful options bodies t := by
  have horderly := hstep.orderly h.orderly
  have hplanned := h.planned
  have hkeeps := h.keeps
  rw [State.remaining] at hplanned
  cases hstep with
  | read _ body rest hs hr =>
    rw [hs] at hplanned hkeeps
    simp only [editorBodies_of_body hr, plan_cons] at hplanned
    exact { h with orderly := horderly, planned := hplanned, keeps := hkeeps }
  | readEnd _ rest hs hr =>
    obtain ⟨hplanned, hkeeps⟩ := h.close rest hs (editorBodies_of_end hr)
    exact { h with orderly := horderly, planned := hplanned, keeps := hkeeps }
  | readError _ e rest hs hr =>
    obtain ⟨hplanned, hkeeps⟩ := h.close rest hs (editorBodies_of_error hr)
    exact { h with orderly := horderly, planned := hplanned, keeps := hkeeps }
  | forward _ body hs hw =>
    have hopen := (h.isOpen (by rw [hs]; rfl)).accept_send (Forwarded.outgoing options body)
    rw [hs] at hplanned
    refine ⟨horderly, ?_, h.unlimited, h.promised_accept (.editor body), ?_, h.relaying⟩
    · cases hexit : Forwarded.isExit body <;>
        simpa [State.remaining, Traffic.forward, hexit, Stage.close] using hplanned
    · cases hexit : Forwarded.isExit body <;> exact hopen
  | forwardRefused _ body hs hw =>
    have hopen := h.isOpen (by rw [hs]; rfl)
    exact absurd hw hopen.not_ended
  | leave _ hs hr => exact absurd hr (h.goes_on (h.isOpen hs).running)
  | notify _ last hs hw =>
    rw [hs] at hplanned hkeeps
    cases last with
    | true => cases hkeeps
    | false =>
      refine ⟨horderly, ?_, h.unlimited, h.promised_accept .notice, hkeeps.accept_send _, h.relaying⟩
      simpa [State.remaining, Traffic.notify] using hplanned
  | notifyRefused _ last hs hw =>
    rw [hs] at hkeeps
    cases last with
    | true => cases hkeeps
    | false => exact absurd hw hkeeps.not_ended
  | shut _ last hs hw =>
    rw [hs] at hplanned hkeeps
    cases last with
    | true => simp [Writer.hasRoom, hkeeps.ended] at hw
    | false =>
      refine ⟨horderly, hplanned, h.unlimited, ?_, .inl hkeeps.accept_shutdown, h.relaying⟩
      rw [WriterTask.promised_accept, h.promised]
      exact List.append_nil _
  | shutRefused _ last hs hw =>
    rw [hs] at hplanned hkeeps
    cases last with
    | true => exact { h with orderly := horderly, planned := hplanned, keeps := hkeeps }
    | false => exact absurd hw hkeeps.not_ended
  | giveUp _ last next hs => cases hc
  | drained _ hs hr =>
    rw [hs] at hplanned hkeeps
    rcases hkeeps with hclosing | hdone
    · exact absurd hr (h.goes_on hclosing.running)
    · -- all of the plan was accepted, and with it a notice, so there is no other one
      have htold := h.orderly.told (by rw [hs]; rfl)
      rw [List.append_nil] at hplanned
      rw [hplanned, any_isExit_plan] at htold
      rw [← htold] at horderly ⊢
      refine { h with orderly := horderly, planned := ?_, keeps := hdone }
      rw [State.remaining]
      exact (List.append_nil _).trans hplanned
  | drainedLate _ hs => cases hc
  | joined _ hs hw =>
    rw [hs] at hplanned hkeeps
    exact { h with orderly := horderly, planned := hplanned, keeps := hkeeps }
  | abort _ part hs hp => cases hc
  | writer _ later hw =>
    refine ⟨horderly, h.planned, hw.unlimited h.unlimited, ?_, hkeeps.step hw h.unlimited, ?_⟩
    · rw [hw.promised h.unlimited]
      exact h.promised
    · exact fun _ => h.relaying hw.running
  | relayEnds _ hr =>
    have hended : s.task.writer.running = false := hc
    exact { h with orderly := horderly, relaying := fun hrunning => by simp [hended] at hrunning }
  | limit _ room flushFails => cases hc

theorem undisturbed (h : Faithful options bodies s) (hstep : UndisturbedStep options s t) :
    Faithful options bodies t := by
  obtain ⟨cause, hc, hstep⟩ := hstep
  exact h.step hc hstep

theorem of_path {stream : List Arrival}
    (hp : Relation.ReflTransGen (UndisturbedStep options) (.start stream (.new none false)) s) :
    Faithful options (editorBodies (stream.flatMap Arrival.signals)) s := by
  induction hp with
  | refl => exact start options stream
  | tail _ hstep ih => exact ih.undisturbed hstep

theorem of_ended (h : Faithful options bodies s) (hs : s.stage = .ended) :
    s.task.writer.outlet.written = Forwarded.inputFor options bodies ∧
      s.traffic.frames = bodies.length ∧
      s.traffic.sentExit = bodies.any Forwarded.isExit := by
  have hplanned := h.planned
  have hdone := h.keeps
  rw [hs] at hdone
  rw [State.remaining, hs, List.append_nil] at hplanned
  refine ⟨?_, ?_, ?_⟩
  · rw [← hdone.promised, h.promised, hplanned, flatMap_plan]
  · rw [h.orderly.frames, hplanned, countP_isEditor_plan]
  · rw [h.orderly.sentExit, hplanned, any_editorExit_plan]

end Faithful

end NoiseGate.Session

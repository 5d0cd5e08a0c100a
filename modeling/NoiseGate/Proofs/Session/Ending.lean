import NoiseGate.Proofs.Session.Undisturbed

/-!
# Sessions end

Every step leaves less to do, unless the server alone takes it, so a session ends. An undisturbed
session is never stuck, and what it has done in the end does not depend on the order of its steps:
it is what a whole session does.
-/

namespace NoiseGate.Session

def Stage.work : Stage → Nat
  -- to put a command into the queue takes one step here and at most two of the writer
  | sending _ => 18
  | reading => 15
  | closing false .exit => 14
  | closing false .shutdown => 11
  | draining => 8
  | closing true .exit => 7
  | closing true .shutdown => 4
  | joining => 1
  | ended => 0

namespace Stage

variable {stage : Stage}

theorem work_of_listens (h : stage.listens = true) : 14 < stage.work := by
  cases stage with
  | reading => decide
  | sending body => simp [work]
  | _ => cases h

theorem work_close_lt (told : Bool) (h : stage.listens = true) :
    (close false told).work < stage.work := by
  have hle : ∀ told, (close false told).work ≤ 14 := by decide
  exact Nat.lt_of_le_of_lt (hle told) (work_of_listens h)

theorem work_close_last (told : Bool) (h : 7 < stage.work) : (close true told).work < stage.work := by
  have hle : ∀ told, (close true told).work ≤ 7 := by decide
  exact Nat.lt_of_le_of_lt (hle told) h

theorem work_shutdown (last : Bool) :
    (closing last .shutdown).work + 2 < (closing last .exit).work := by
  cases last <;> decide

theorem work_afterClosing (last : Bool) (next : Farewell) :
    (afterClosing last).work + 2 < (closing last next).work := by
  cases last <;> cases next <;> decide

theorem listens_afterClosing (last : Bool) : (afterClosing last).listens = false := by
  cases last <;> rfl

end Stage

/-- Counts what is left to do. Every body to come has at least one byte to be read. -/
def State.work (s : State) : Nat :=
  s.stage.work + (if s.stage.listens then 8 * s.editor.length else 0) + s.task.work +
    s.relaying.toNat

variable {options : Option Json.Value} {s t : State} {cause : Cause}

namespace State

theorem work_lt (hl : t.stage.listens = false) (hr : t.relaying = s.relaying)
    (hw : t.stage.work + t.task.work < s.stage.work + s.task.work) : t.work < s.work := by
  simp only [work, hl, hr, Bool.false_eq_true, if_false]
  omega

theorem work_move (s : State) (stage : Stage) (editor : List Signal) (hl : stage.listens = false)
    (hw : stage.work < s.stage.work) : work { s with stage := stage, editor := editor } < s.work :=
  work_lt hl rfl (Nat.add_lt_add_right hw _)

theorem work_accept (s : State) (stage : Stage) (c : Command) (traffic : Traffic)
    (hl : stage.listens = false) (hw : stage.work + 2 < s.stage.work) :
    work { s with stage := stage, task := s.task.accept c, traffic := traffic } < s.work := by
  have haccept := s.task.work_accept c
  refine work_lt hl rfl ?_
  change stage.work + (s.task.accept c).work < s.stage.work + s.task.work
  omega

end State

/-- All that the tasks, the relay and the limits of time do leaves less to do. -/
theorem Step.work_lt (hstep : Step options cause s t) (hc : cause ≠ .server) : t.work < s.work := by
  cases hstep with
  | read _ body rest hs hr =>
    have hlt := readFrame_length_lt hr
    simp only [State.work, hs, Stage.work, Stage.listens, if_true]
    omega
  | readEnd _ rest hs hr => exact s.work_move _ rest rfl (Stage.work_close_lt _ (by rw [hs]; rfl))
  | readError _ e rest hs hr =>
    exact s.work_move _ rest rfl (Stage.work_close_lt _ (by rw [hs]; rfl))
  | forward _ body hs hw =>
    cases Forwarded.isExit body with
    | true =>
      have hless : (Stage.close false true).work + 2 < (Stage.sending body).work :=
        (by decide : 11 + 2 < 18)
      exact s.work_accept _ _ _ rfl (hs ▸ hless)
    | false =>
      have haccept := s.task.work_accept (.send (Forwarded.outgoing options body))
      simp only [State.work, hs, Stage.work, Stage.listens, haccept, Bool.false_eq_true, if_true,
        if_false]
      omega
  | forwardRefused _ body hs hw =>
    exact s.work_move _ _ rfl (Stage.work_close_lt _ (by rw [hs]; rfl))
  | leave _ hs hr =>
    have hlate := Stage.work_of_listens hs
    exact s.work_move _ _ rfl (Stage.work_close_last _ (by omega))
  | notify _ last hs hw => exact s.work_accept _ _ _ rfl (hs ▸ Stage.work_shutdown last)
  | notifyRefused _ last hs hw =>
    have hless := Stage.work_shutdown last
    exact s.work_move _ _ rfl (by rw [hs]; omega)
  | shut _ last hs hw =>
    exact s.work_accept _ _ _ (Stage.listens_afterClosing last)
      (hs ▸ Stage.work_afterClosing last .shutdown)
  | shutRefused _ last hs hw =>
    have hless := Stage.work_afterClosing last .shutdown
    exact s.work_move _ _ (Stage.listens_afterClosing last) (by rw [hs]; omega)
  | giveUp _ last next hs =>
    have hless := Stage.work_afterClosing last next
    exact s.work_move _ _ (Stage.listens_afterClosing last) (by rw [hs]; omega)
  | drained _ hs hr => exact s.work_move _ _ rfl (Stage.work_close_last _ (by rw [hs]; decide))
  | drainedLate _ hs => exact s.work_move _ _ rfl (Stage.work_close_last _ (by rw [hs]; decide))
  | joined _ hs hw => exact s.work_move _ _ rfl (by rw [hs]; decide)
  | abort _ part hs hp =>
    have hle := s.task.work_abort_le part
    refine State.work_lt rfl rfl ?_
    rw [hs]
    exact Nat.add_lt_add_of_lt_of_le Nat.zero_lt_one hle
  | writer _ later hw =>
    have hlt := hw.work_lt
    simp only [State.work]
    omega
  | relayEnds _ hr =>
    simp only [State.work, hr, Bool.toNat_true, Bool.toNat_false]
    omega
  | limit _ room flushFails => contradiction

theorem UndisturbedStep.work_lt (h : UndisturbedStep options s t) : t.work < s.work := by
  obtain ⟨cause, hc, hstep⟩ := h
  exact hstep.work_lt (by rintro rfl; exact hc)

theorem Faithful.exists_step {bodies : List Bytes} (h : Faithful options bodies s)
    (hs : s.stage ≠ .ended) : ∃ t, UndisturbedStep options s t := by
  have own {t : State} (hstep : Step options .task s t) : ∃ t, UndisturbedStep options s t :=
    ⟨t, .task, trivial, hstep⟩
  have queue (t : State) (hopen : s.task.Open)
      (hstep : s.task.writer.hasRoom = true → Step options .task s t) :
      ∃ t, UndisturbedStep options s t := by
    rcases s.task.hasRoom_or_step hopen.running with hroom | ⟨later, hw⟩
    · exact own (hstep hroom)
    · exact own (.writer s later hw)
  have hkeeps := h.keeps
  match hstage : s.stage with
  | .reading =>
    match hr : readFrame s.editor with
    | (.ok (some body), rest) => exact own (.read s body rest hstage hr)
    | (.ok none, rest) => exact own (.readEnd s rest hstage hr)
    | (.error e, rest) => exact own (.readError s e rest hstage hr)
  | .sending body =>
    rw [hstage] at hkeeps
    exact queue _ hkeeps (.forward s body hstage)
  | .closing false .exit =>
    rw [hstage] at hkeeps
    exact queue _ hkeeps (.notify s false hstage)
  | .closing false .shutdown =>
    rw [hstage] at hkeeps
    exact queue _ hkeeps (.shut s false hstage)
  | .closing true .exit =>
    rw [hstage] at hkeeps
    cases hkeeps
  | .closing true .shutdown =>
    rw [hstage] at hkeeps
    exact own (.shutRefused s true hstage hkeeps.ended)
  | .draining =>
    rw [hstage] at hkeeps
    rcases hkeeps with hclosing | hdone
    · obtain ⟨sends, hends, _⟩ := hclosing.ends
      obtain ⟨later, hw⟩ := s.task.exists_step hclosing.running (by simp [hends])
      exact own (.writer s later hw)
    · cases hr : s.relaying with
      | true => exact ⟨_, .relay, hdone.ended, .relayEnds s hr⟩
      | false => exact own (.drained s hstage hr)
  | .joining =>
    rw [hstage] at hkeeps
    exact own (.joined s hstage hkeeps.ended)
  | .ended => contradiction

/-- An undisturbed session can be carried on until it is over. -/
theorem Faithful.exists_ended {bodies : List Bytes} (h : Faithful options bodies s) :
    ∃ t, Relation.ReflTransGen (UndisturbedStep options) s t ∧ t.stage = .ended := by
  induction hn : s.work using Nat.strongRecOn generalizing s with
  | ind n ih =>
    by_cases hs : s.stage = .ended
    · exact ⟨s, .refl, hs⟩
    · obtain ⟨next, hstep⟩ := h.exists_step hs
      obtain ⟨t, hpath, hended⟩ := ih next.work (hn ▸ hstep.work_lt) (h.undisturbed hstep) rfl
      exact ⟨t, .head hstep hpath, hended⟩

end NoiseGate.Session

import NoiseGate.Proofs.Frame.Reading
import NoiseGate.Proofs.Session.Steps

/-!
# The notice to exit

A body that tells the server to exit can come from the editor, from the first attempt to close the
queue, and from the last one. However the steps of a session are ordered, the queue accepts at most
one, and nothing behind it.
-/

namespace NoiseGate.Session

namespace Stage

/-- Whether a body that tells the server to exit may still be queued before the queue is closed. -/
def mayTell : Stage → Bool
  | reading => true
  | sending _ => true
  | closing _ .exit => true
  | _ => false

def isLast : Stage → Bool
  | closing last _ => last
  | joining => true
  | ended => true
  | _ => false

@[simp] theorem mayTell_close (last told : Bool) : (close last told).mayTell = !told := by
  cases told <;> rfl

@[simp] theorem isLast_closing (last : Bool) (next : Farewell) :
    (closing last next).isLast = last := rfl

@[simp] theorem isLast_close (last told : Bool) : (close last told).isLast = last := rfl

@[simp] theorem mayTell_afterClosing (last : Bool) : (afterClosing last).mayTell = false := by
  cases last <;> rfl

@[simp] theorem isLast_afterClosing (last : Bool) : (afterClosing last).isLast = last := by
  cases last <;> rfl

theorem mayTell_of_listens (stage : Stage) (h : stage.listens = true) : stage.mayTell = true := by
  cases stage <;> trivial

theorem isLast_of_listens (stage : Stage) (h : stage.listens = true) : stage.isLast = false := by
  cases stage <;> trivial

end Stage

/-- What the accepted bodies are in a stage. -/
structure Orderly (stage : Stage) (t : Traffic) : Prop where
  frames : t.frames = t.accepted.countP Entry.isEditor
  sentExit : t.sentExit = t.accepted.any fun e => e.isEditor && e.isExit
  /-- None but the last one tells the server to exit. -/
  last : t.accepted.dropLast.any Entry.isExit = false
  untold : stage.mayTell = true → t.accepted.any Entry.isExit = false
  /-- Until the last attempt, the session knows whether one of them did. -/
  told : stage.isLast = false → t.accepted.any Entry.isExit = t.told

namespace Orderly

variable {stage : Stage} {t : Traffic}

theorem nothing : Orderly .reading .nothing :=
  ⟨rfl, rfl, rfl, fun _ => rfl, fun _ => rfl⟩

theorem move (h : Orderly stage t) (later : Stage)
    (hm : later.mayTell = true → stage.mayTell = true)
    (hl : later.isLast = false → stage.isLast = false) : Orderly later t :=
  ⟨h.frames, h.sentExit, h.last, fun hlater => h.untold (hm hlater), fun hlater => h.told (hl hlater)⟩

/-- The last attempt sends the notice exactly if none was accepted. -/
theorem close_last (h : Orderly stage t) (hl : stage.isLast = false) :
    Orderly (.close true t.told) t := by
  refine ⟨h.frames, h.sentExit, h.last, ?_, by simp⟩
  intro hm
  rw [Stage.mayTell_close, Bool.not_eq_true'] at hm
  rw [h.told hl, hm]

theorem flags (h : Orderly stage t) (hs : stage.listens = true) :
    t.sentExit = false ∧ t.exitSentHere = false := by
  have hnone := h.untold (Stage.mayTell_of_listens stage hs)
  have htold := h.told (Stage.isLast_of_listens stage hs)
  rw [hnone] at htold
  simpa [Traffic.told] using htold.symm

theorem forward (h : Orderly stage t) (body : Bytes) (hs : stage.listens = true) :
    Orderly (if Forwarded.isExit body then .close false true else .reading) (t.forward body) := by
  have hnone := h.untold (Stage.mayTell_of_listens stage hs)
  have hflags := h.flags hs
  have hall : (t.forward body).accepted.any Entry.isExit = Forwarded.isExit body := by
    simp [Traffic.forward, hnone, Entry.isExit]
  refine ⟨?_, ?_, ?_, ?_, ?_⟩
  · simp [Traffic.forward, h.frames, Entry.isEditor]
  · simp [Traffic.forward, h.sentExit, Entry.isEditor, Entry.isExit]
  · simpa [Traffic.forward] using hnone
  · intro hm
    cases hexit : Forwarded.isExit body with
    | true => simp [hexit] at hm
    | false => rw [hall, hexit]
  · intro _
    rw [hall, Traffic.told, Traffic.forward, hflags.1, hflags.2, Bool.false_or, Bool.or_false]

theorem notify {last : Bool} (h : Orderly (.closing last .exit) t) :
    Orderly (.closing last .shutdown) (t.notify last) := by
  have hnone := h.untold rfl
  refine ⟨?_, ?_, ?_, ?_, ?_⟩
  · simp [Traffic.notify, h.frames, Entry.isEditor]
  · simp [Traffic.notify, h.sentExit, Entry.isEditor]
  · simpa [Traffic.notify] using hnone
  · intro hm
    cases hm
  · intro hl
    change last = false at hl
    simp [Traffic.notify, Traffic.told, Entry.isExit, hl]

end Orderly

/-- Every step keeps order, whatever brings it about. -/
theorem Step.orderly {options : Option Json.Value} {cause : Cause} {s t : State}
    (hstep : Step options cause s t) (h : Orderly s.stage s.traffic) :
    Orderly t.stage t.traffic := by
  cases hstep with
  | read _ body rest hs hr => exact h.move _ (by simp [hs, Stage.mayTell]) (by simp [hs, Stage.isLast])
  | readEnd _ rest hs hr => exact h.move _ (by simp [hs, Stage.mayTell]) (by simp [hs, Stage.isLast])
  | readError _ e rest hs hr =>
    exact h.move _ (by simp [hs, Stage.mayTell]) (by simp [hs, Stage.isLast])
  | forward _ body hs hw => exact h.forward body (by rw [hs]; rfl)
  | forwardRefused _ body hs hw =>
    exact h.move _ (by simp [hs, Stage.mayTell]) (by simp [hs, Stage.isLast])
  | leave _ hs hr => exact h.close_last (Stage.isLast_of_listens _ hs)
  | notify _ last hs hw =>
    rw [hs] at h
    exact h.notify
  | notifyRefused _ last hs hw =>
    exact h.move _ (by simp [Stage.mayTell]) (by simp [hs, Stage.isLast])
  | shut _ last hs hw => exact h.move _ (by simp) (by simp [hs])
  | shutRefused _ last hs hw => exact h.move _ (by simp) (by simp [hs])
  | giveUp _ last next hs => exact h.move _ (by simp) (by simp [hs])
  | drained _ hs hr => exact h.close_last (by rw [hs]; rfl)
  | drainedLate _ hs => exact h.close_last (by rw [hs]; rfl)
  | joined _ hs hw => exact h.move _ (by simp [Stage.mayTell]) (by simp [Stage.isLast])
  | abort _ part hs hp => exact h.move _ (by simp [Stage.mayTell]) (by simp [Stage.isLast])
  | writer _ later hw => exact h
  | relayEnds _ hr => exact h
  | limit _ room flushFails => exact h

theorem Reachable.orderly {options : Option Json.Value} {stream : List Arrival} {outlet : Outlet}
    {s : State} (hr : Reachable options stream outlet s) : Orderly s.stage s.traffic := by
  induction hr with
  | refl => exact .nothing
  | tail _ hstep ih =>
    obtain ⟨cause, hstep⟩ := hstep
    exact hstep.orderly ih

/-- In whatever order a session's steps are taken, the queue accepts at most one body that tells
the server to exit, and no body behind it. The session knows whether the editor sent it, and counts
the editor's bodies that were accepted. -/
theorem exit_accepted_last (options : Option Json.Value) (stream : List Arrival) (outlet : Outlet)
    (s : State) (hr : Reachable options stream outlet s) :
    s.traffic.accepted.countP Entry.isExit ≤ 1 ∧
      (∀ before e after, s.traffic.accepted = before ++ e :: after → e.isExit = true →
        after = []) ∧
      (s.traffic.sentExit = true ↔
        ∃ body, .editor body ∈ s.traffic.accepted ∧ Forwarded.isExit body = true) ∧
      s.traffic.frames = s.traffic.accepted.countP Entry.isEditor := by
  have h := hr.orderly
  have hdrop := h.last
  refine ⟨?_, ?_, ?_, h.frames⟩
  · rcases List.eq_nil_or_concat s.traffic.accepted with hnil | ⟨before, e, hsplit⟩
    · simp [hnil]
    · rw [hsplit, List.concat_eq_append, List.dropLast_concat] at hdrop
      have hbefore : before.countP Entry.isExit = 0 := by
        rw [List.countP_eq_zero]
        exact List.any_eq_false.mp hdrop
      rw [hsplit, List.concat_eq_append, List.countP_append, hbefore, Nat.zero_add]
      exact List.countP_le_length
  · intro before e after hsplit he
    cases hafter : after with
    | nil => rfl
    | cons next more =>
      rw [hsplit, List.dropLast_append_of_ne_nil (by simp), hafter, List.dropLast_cons_cons] at hdrop
      simp [he] at hdrop
  · rw [h.sentExit, List.any_eq_true]
    constructor
    · rintro ⟨e, hmem, he⟩
      cases e with
      | editor body => exact ⟨body, hmem, by simpa [Entry.isEditor, Entry.isExit] using he⟩
      | notice => cases he
    · rintro ⟨body, hmem, hbody⟩
      exact ⟨.editor body, hmem, by simpa [Entry.isEditor, Entry.isExit] using hbody⟩

/-- The relay ends while the editor's own notice waits, so the session sends one instead. Then both
limits of time pass. -/
theorem exit_accepted_last_dropped :
    let stream := [Arrival.bytes (ascii "Content-Length: 2\r\n\r\n[]Content-Length: 33\r\n\r\n"),
      Arrival.bytes Rpc.exitBody]
    ∃ s, Reachable none stream (.new (some 9) false) s ∧ s.stage = .ended ∧
      s.traffic = ⟨[.editor (ascii "[]"), .notice], 1, false, false⟩ ∧
      s.traffic.accepted.countP Entry.isExit ≤ 1 ∧
      (∀ before e after, s.traffic.accepted = before ++ e :: after → e.isExit = true →
        after = []) ∧
      (s.traffic.sentExit = true ↔
        ∃ body, .editor body ∈ s.traffic.accepted ∧ Forwarded.isExit body = true) ∧
      s.traffic.frames = s.traffic.accepted.countP Entry.isEditor := by
  intro stream
  let reached := Reachable none stream (.new (some 9) false)
  have hfirst : readFrame (State.start stream (.new (some 9) false)).editor = (.ok (some (ascii "[]")),
      (ascii "Content-Length: 33\r\n\r\n" ++ Rpc.exitBody).map .byte) :=
    readFrame_frame (ascii "2") (ascii "[]") _ ⟨by decide, List.all_eq_true.mp (by decide), by decide⟩
      (by decide) (by decide)
  have hsecond : readFrame ((ascii "Content-Length: 33\r\n\r\n" ++ Rpc.exitBody).map .byte) =
      (.ok (some Rpc.exitBody), []) :=
    readFrame_frame (ascii "33") Rpc.exitBody [] ⟨by decide, List.all_eq_true.mp (by decide), by decide⟩
      (by decide +kernel) (by decide)
  have hplain : (if Forwarded.isExit (ascii "[]") then Stage.close false true else .reading) =
      .reading := if_neg (by decide +kernel)
  have h1 : reached _ := .tail .refl ⟨_, .read _ _ _ rfl hfirst⟩
  have h2 : reached _ := .tail h1 ⟨_, .forward _ _ rfl rfl⟩
  have h3 : reached _ := .tail h2 ⟨_, .read _ _ _ hplain hsecond⟩
  have h4 : reached _ := .tail h3 ⟨_, .relayEnds _ rfl⟩
  have h5 : reached _ := .tail h4 ⟨_, .leave _ rfl rfl⟩
  have h6 : reached _ := .tail h5 ⟨_, .notify _ true (by decide +kernel) rfl⟩
  have h7 : reached _ := .tail h6 ⟨_, .giveUp _ true _ rfl⟩
  have h8 : reached _ := .tail h7 ⟨_, .abort _ [] rfl List.nil_prefix⟩
  exact ⟨_, h8, rfl, by decide +kernel, exit_accepted_last none stream _ _ h8⟩

end NoiseGate.Session

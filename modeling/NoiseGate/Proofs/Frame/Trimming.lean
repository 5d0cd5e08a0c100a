import NoiseGate.Proofs.Frame.Location

/-!
# Dropping dead bytes

`deadLength` counts the bytes in front of the first stub. Dropping them from a buffer without a
header changes neither which header is found once more bytes have come, nor which bytes are dead
by then.
-/

namespace NoiseGate.Header

private theorem deadFrom_eq_add (pos : Nat) (buffer : Bytes) :
    deadFrom pos buffer = pos + deadLength buffer := by
  induction buffer generalizing pos with
  | nil => rfl
  | cons b rest ih =>
    simp only [deadLength, deadFrom]
    split
    · rfl
    · rw [ih (pos + 1), ih (0 + 1)]
      omega

@[simp] theorem deadLength_nil : deadLength [] = 0 := rfl

theorem deadLength_cons_of_stub (b : UInt8) (rest : Bytes) (h : isStub (b :: rest) = true) :
    deadLength (b :: rest) = 0 := by
  simp [deadLength, deadFrom, h]

theorem deadLength_cons_of_dead (b : UInt8) (rest : Bytes) (h : isStub (b :: rest) = false) :
    deadLength (b :: rest) = deadLength rest + 1 := by
  simp only [deadLength, deadFrom, h]
  exact (deadFrom_eq_add 1 rest).trans (Nat.add_comm _ _)

theorem deadLength_le (buffer : Bytes) : deadLength buffer ≤ buffer.length := by
  induction buffer with
  | nil => exact Nat.le_refl 0
  | cons b rest ih =>
    cases h : isStub (b :: rest) with
    | true => simp [deadLength_cons_of_stub b rest h]
    | false => simpa [deadLength_cons_of_dead b rest h] using ih

theorem isStub_of_lt_deadLength (buffer : Bytes) (place : Nat) (h : place < deadLength buffer) :
    isStub (buffer.drop place) = false := by
  induction buffer generalizing place with
  | nil => exact absurd h (Nat.not_lt_zero _)
  | cons b rest ih =>
    cases hs : isStub (b :: rest) with
    | true =>
      rw [deadLength_cons_of_stub b rest hs] at h
      exact absurd h (Nat.not_lt_zero _)
    | false =>
      rw [deadLength_cons_of_dead b rest hs] at h
      cases place with
      | zero => exact hs
      | succ place => exact ih place (Nat.lt_of_succ_lt_succ h)

theorem isStub_drop_deadLength (buffer : Bytes) (h : deadLength buffer < buffer.length) :
    isStub (buffer.drop (deadLength buffer)) = true := by
  induction buffer with
  | nil => exact absurd h (Nat.not_lt_zero _)
  | cons b rest ih =>
    cases hs : isStub (b :: rest) with
    | true => rwa [deadLength_cons_of_stub b rest hs]
    | false =>
      rw [deadLength_cons_of_dead b rest hs] at h ⊢
      exact ih (Nat.lt_of_succ_lt_succ h)

theorem eq_deadLength (buffer : Bytes) (place : Nat) (hle : place ≤ buffer.length)
    (hbefore : ∀ earlier < place, isStub (buffer.drop earlier) = false)
    (hstub : place < buffer.length → isStub (buffer.drop place) = true) :
    place = deadLength buffer := by
  have hdead := deadLength_le buffer
  rcases Nat.lt_trichotomy place (deadLength buffer) with hlt | heq | hlt
  · have hs := hstub (Nat.lt_of_lt_of_le hlt hdead)
    rw [isStub_of_lt_deadLength buffer place hlt] at hs
    contradiction
  · exact heq
  · have hs := isStub_drop_deadLength buffer (Nat.lt_of_lt_of_le hlt hle)
    rw [hbefore _ hlt] at hs
    contradiction

theorem deadLength_append (buffer more : Bytes) :
    deadLength (buffer ++ more) =
      deadLength buffer + deadLength (buffer.drop (deadLength buffer) ++ more) := by
  induction buffer with
  | nil => simp
  | cons b rest ih =>
    cases h : isStub (b :: rest) with
    | true => simp [deadLength_cons_of_stub b rest h]
    | false =>
      have hmore : isStub (b :: (rest ++ more)) = false := by
        refine Bool.eq_false_iff.mpr fun hs => ?_
        have := isStub_of_append (b :: rest) more (List.cons_ne_nil _ _) hs
        rw [this] at h
        contradiction
      rw [List.cons_append, deadLength_cons_of_dead _ _ hmore, deadLength_cons_of_dead _ _ h,
        List.drop_succ_cons, ih]
      omega

/-- Dropping the dead bytes of a buffer without a header moves the header that more bytes bring,
and does nothing else. -/
theorem locate_append_of_none (buffer more : Bytes) (hn : locate buffer = none) :
    locate (buffer ++ more) =
      (locate (buffer.drop (deadLength buffer) ++ more)).map (shift (deadLength buffer)) := by
  induction buffer with
  | nil => simp
  | cons b rest ih =>
    obtain ⟨hb, hrest⟩ := (locate_cons_eq_none_iff b rest).mp hn
    cases h : isStub (b :: rest) with
    | true => simp [deadLength_cons_of_stub b rest h]
    | false =>
      have hd := digits?_append_of_dead (b :: rest) more (List.cons_ne_nil _ _) hb h
      rw [List.cons_append] at hd ⊢
      rw [locate_cons_of_none _ _ hd, deadLength_cons_of_dead _ _ h, List.drop_succ_cons, ih hrest,
        Option.map_map]
      congr 1
      funext found
      rw [Function.comp_apply, shift_shift, Nat.add_comm]

end NoiseGate.Header

import NoiseGate.Proofs.Frame.Spelling

/-!
# The first header of a buffer

`locate` finds the leftmost place where a header is spelled. What stands in front of it holds no
header, and neither that nor what follows can move a header that has been found.
-/

namespace NoiseGate.Header

def shift (offset : Nat) (h : Header) : Header :=
  ⟨offset + h.start, offset + h.stop, h.payload, Nat.add_lt_add_left h.start_lt_stop offset⟩

@[simp] theorem spelledAt_start (pos : Nat) (digits : Bytes) :
    (spelledAt pos digits).start = pos := rfl

@[simp] theorem spelledAt_frameSize (pos : Nat) (digits : Bytes) :
    (spelledAt pos digits).frameSize = sizeOf digits.length + digitsValue digits := by
  simp [frameSize, size, spelledAt]

@[simp] theorem shift_start (offset : Nat) (h : Header) :
    (h.shift offset).start = offset + h.start := rfl

@[simp] theorem shift_frameSize (offset : Nat) (h : Header) :
    (h.shift offset).frameSize = h.frameSize := by
  simp only [frameSize, size, shift]
  omega

@[simp] theorem shift_zero : shift 0 = id := by
  funext h
  simp [shift]

theorem shift_shift (i j : Nat) (h : Header) : (h.shift j).shift i = h.shift (i + j) := by
  simp [shift, Nat.add_assoc]

theorem shift_spelledAt (offset pos : Nat) (digits : Bytes) :
    (spelledAt pos digits).shift offset = spelledAt (offset + pos) digits := by
  simp [shift, spelledAt, Nat.add_assoc]

private theorem locateFrom_eq_map (pos : Nat) (buffer : Bytes) :
    locateFrom pos buffer = (locate buffer).map (shift pos) := by
  induction buffer generalizing pos with
  | nil => rfl
  | cons b rest ih =>
    simp only [locate, locateFrom]
    cases digits? (b :: rest) with
    | some digits => simp [shift_spelledAt]
    | none =>
      simp only [ih (pos + 1), ih (0 + 1), Option.map_map]
      congr 1
      funext h
      simp [shift_shift]

@[simp] theorem locate_nil : locate [] = none := rfl

theorem locate_cons_of_some (b : UInt8) (rest digits : Bytes)
    (h : digits? (b :: rest) = some digits) : locate (b :: rest) = some (spelledAt 0 digits) := by
  simp only [locate, locateFrom, h]

theorem locate_cons_of_none (b : UInt8) (rest : Bytes) (h : digits? (b :: rest) = none) :
    locate (b :: rest) = (locate rest).map (shift 1) := by
  simp only [locate, locateFrom, h]
  exact locateFrom_eq_map 1 rest

theorem locate_cons_eq_none_iff (b : UInt8) (rest : Bytes) :
    locate (b :: rest) = none ↔ digits? (b :: rest) = none ∧ locate rest = none := by
  cases h : digits? (b :: rest) with
  | some digits => simp [locate_cons_of_some b rest digits h]
  | none => simp [locate_cons_of_none b rest h]

theorem locate_append_spell (noise digits rest : Bytes) (hn : locate noise = none)
    (ha : Announces digits) :
    locate (noise ++ (spell digits ++ rest)) = some (spelledAt noise.length digits) := by
  induction noise with
  | nil =>
    have hd := digits?_spell digits rest ha
    rw [List.nil_append]
    rw [spell_eq_cons, List.cons_append] at hd ⊢
    exact locate_cons_of_some _ _ digits hd
  | cons b noise ih =>
    obtain ⟨hb, hnoise⟩ := (locate_cons_eq_none_iff b noise).mp hn
    have hd := digits?_append_spell (b :: noise) digits rest (List.cons_ne_nil _ _) hb
    rw [List.cons_append] at hd ⊢
    rw [locate_cons_of_none _ _ hd, ih hnoise, Option.map_some, shift_spelledAt, List.length_cons,
      Nat.add_comm]

private theorem exists_of_locate (buffer : Bytes) (h : Header) (hl : locate buffer = some h) :
    ∃ noise digits rest, buffer = noise ++ (spell digits ++ rest) ∧ locate noise = none ∧
      Announces digits ∧ h = spelledAt noise.length digits := by
  induction buffer generalizing h with
  | nil => contradiction
  | cons b buffer ih =>
    cases hd : digits? (b :: buffer) with
    | some digits =>
      obtain ⟨ha, rest, hrest⟩ := (digits?_eq_some_iff _ _).mp hd
      rw [locate_cons_of_some b buffer digits hd] at hl
      exact ⟨[], digits, rest, hrest.symm, rfl, ha, (Option.some.inj hl).symm⟩
    | none =>
      rw [locate_cons_of_none b buffer hd] at hl
      obtain ⟨h', hl', rfl⟩ := Option.map_eq_some_iff.mp hl
      obtain ⟨noise, digits, rest, rfl, hn, ha, rfl⟩ := ih h' hl'
      refine ⟨b :: noise, digits, rest, rfl, ?_, ha, ?_⟩
      · refine (locate_cons_eq_none_iff b noise).mpr ⟨?_, hn⟩
        exact digits?_eq_none_of_append (b :: noise) _ hd
      · rw [shift_spelledAt, List.length_cons, Nat.add_comm]

/-- `locate` finds the leftmost header and nothing else. -/
theorem locate_eq_some_iff (buffer : Bytes) (h : Header) :
    locate buffer = some h ↔ ∃ noise digits rest, buffer = noise ++ (spell digits ++ rest) ∧
      locate noise = none ∧ Announces digits ∧ h = spelledAt noise.length digits := by
  constructor
  · exact exists_of_locate buffer h
  · rintro ⟨noise, digits, rest, rfl, hn, ha, rfl⟩
    exact locate_append_spell noise digits rest hn ha

theorem start_lt_of_locate (buffer : Bytes) (h : Header) (hl : locate buffer = some h) :
    h.start < buffer.length := by
  obtain ⟨noise, digits, rest, rfl, _, _, rfl⟩ := (locate_eq_some_iff buffer h).mp hl
  have hs := sizeOf_pos digits.length
  simp only [spelledAt_start, List.length_append, spell_length]
  omega

theorem frameSize_bounds (buffer : Bytes) (h : Header) (hl : locate buffer = some h) :
    sizeOf 1 ≤ h.frameSize ∧ h.frameSize ≤ wordMax := by
  obtain ⟨noise, digits, rest, _, _, ha, rfl⟩ := (locate_eq_some_iff buffer h).mp hl
  have hpos : 0 < digits.length := List.length_pos_iff.mpr ha.ne_nil
  rw [spelledAt_frameSize]
  refine ⟨?_, ha.countable⟩
  unfold sizeOf
  omega

/-- A header that has been located stays where it is. -/
theorem locate_append_of_some (buffer more : Bytes) (h : Header) (hl : locate buffer = some h) :
    locate (buffer ++ more) = some h := by
  obtain ⟨noise, digits, rest, rfl, hn, ha, rfl⟩ := (locate_eq_some_iff buffer h).mp hl
  rw [List.append_assoc, List.append_assoc]
  exact locate_append_spell noise digits (rest ++ more) hn ha

end NoiseGate.Header

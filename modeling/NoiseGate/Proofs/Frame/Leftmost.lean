import Mathlib.Data.List.Induction
import Mathlib.Data.Nat.Digits.Defs
import NoiseGate.Proofs.Frame.Location
import NoiseGate.Proofs.Text.Decimal

/-!
# What stands where

A search over the places of a buffer is described by what stands at each place: it gives the first
of these things. There is only one such result, so two searches that look for the same things give
the same, however they get from one place to the next. `locate` is such a search for the headers
that stand in a buffer.
-/

namespace NoiseGate

/-- The first of the things that stand at the places of a buffer, or nothing if none stands at any
of them. -/
def IsFirst {α : Type} (stands : Nat → Option α) : Option α → Prop
  | some a => ∃ place, stands place = some a ∧ ∀ earlier < place, stands earlier = none
  | none => ∀ place, stands place = none

namespace IsFirst

variable {α : Type} {stands : Nat → Option α} {result : Option α}

theorem of_here {a : α} (h : stands 0 = some a) : IsFirst stands (some a) :=
  ⟨0, h, fun _ hlt => absurd hlt (Nat.not_lt_zero _)⟩

theorem of_skip (skipped : Nat) (hnone : ∀ place < skipped, stands place = none)
    (h : IsFirst (fun place => stands (skipped + place)) result) : IsFirst stands result := by
  cases result with
  | none =>
    intro place
    by_cases hlt : place < skipped
    · exact hnone place hlt
    · have hrest : stands (skipped + (place - skipped)) = none := h (place - skipped)
      rwa [Nat.add_sub_cancel' (Nat.le_of_not_lt hlt)] at hrest
  | some a =>
    obtain ⟨place, hplace, hearlier⟩ := h
    refine ⟨skipped + place, hplace, fun earlier hlt => ?_⟩
    by_cases hskip : earlier < skipped
    · exact hnone earlier hskip
    · have hrest : stands (skipped + (earlier - skipped)) = none :=
        hearlier (earlier - skipped) (by omega)
      rwa [Nat.add_sub_cancel' (Nat.le_of_not_lt hskip)] at hrest

theorem map {β : Type} (f : α → β) (h : IsFirst stands result) :
    IsFirst (fun place => (stands place).map f) (result.map f) := by
  cases result with
  | none =>
    intro place
    simp only [h place, Option.map_none]
  | some a =>
    obtain ⟨place, hplace, hearlier⟩ := h
    refine ⟨place, by simp only [hplace, Option.map_some], ?_⟩
    intro earlier hlt
    simp only [hearlier earlier hlt, Option.map_none]

theorem unique {other : Option α} (h : IsFirst stands result) (h' : IsFirst stands other) :
    result = other := by
  match result, other with
  | none, none => rfl
  | none, some b =>
    obtain ⟨place, hplace, _⟩ := h'
    rw [h place] at hplace
    contradiction
  | some a, none =>
    obtain ⟨place, hplace, _⟩ := h
    rw [h' place] at hplace
    contradiction
  | some a, some b =>
    obtain ⟨place, hplace, hearlier⟩ := h
    obtain ⟨place', hplace', hearlier'⟩ := h'
    rcases Nat.lt_trichotomy place place' with hlt | rfl | hlt
    · rw [hearlier' place hlt] at hplace
      contradiction
    · exact hplace.symm.trans hplace'
    · rw [hearlier place' hlt] at hplace'
      contradiction

end IsFirst

theorem digitsValue_eq_ofDigits (digits : Bytes) :
    digitsValue digits = Nat.ofDigits 10 (digits.map digitValue).reverse := by
  induction digits using List.reverseRecOn with
  | nil => rfl
  | append_singleton digits d ih =>
    rw [digitsValue_concat, ih, List.map_append, List.reverse_append]
    exact Nat.add_comm _ _

namespace Header

/-- A header that gives its length by these digits stands at a place of a buffer, and its frame can
be counted. -/
structure StandsAt (buffer : Bytes) (place : Nat) (digits : Bytes) : Prop where
  ne_nil : digits ≠ []
  isDigit : ∀ d ∈ digits, isDigit d = true
  countable : (token ++ digits ++ separator).length +
    Nat.ofDigits 10 (digits.map digitValue).reverse ≤ wordMax
  isPrefix : token ++ digits ++ separator <+: buffer.drop place

theorem standsAt_iff (buffer : Bytes) (place : Nat) (digits : Bytes) :
    StandsAt buffer place digits ↔ digits? (buffer.drop place) = some digits := by
  have hsize : (token ++ digits ++ separator).length = sizeOf digits.length := spell_length digits
  rw [digits?_eq_some_iff]
  constructor
  · rintro ⟨hne, hd, hcount, hp⟩
    rw [hsize, ← digitsValue_eq_ofDigits] at hcount
    exact ⟨⟨hne, hd, hcount⟩, hp⟩
  · rintro ⟨⟨hne, hd, hcount⟩, hp⟩
    rw [digitsValue_eq_ofDigits, ← hsize] at hcount
    exact ⟨hne, hd, hcount, hp⟩

def standing? (buffer : Bytes) (place : Nat) : Option Header :=
  (digits? (buffer.drop place)).map (spelledAt place)

theorem standing?_eq_some_iff (buffer : Bytes) (place : Nat) (h : Header) :
    standing? buffer place = some h ↔
      ∃ digits, StandsAt buffer place digits ∧ h = spelledAt place digits := by
  simp only [standing?, standsAt_iff, Option.map_eq_some_iff, eq_comm (a := h)]

theorem standing?_eq_none_iff (buffer : Bytes) (place : Nat) :
    standing? buffer place = none ↔ ∀ digits, ¬ StandsAt buffer place digits := by
  rw [standing?, Option.map_eq_none_iff, Option.eq_none_iff_forall_ne_some]
  exact forall_congr' fun digits => not_congr (standsAt_iff buffer place digits).symm

private theorem isFirst_locateFrom (pos : Nat) (buffer : Bytes) :
    IsFirst (fun place => (digits? (buffer.drop place)).map (spelledAt (pos + place)))
      (locateFrom pos buffer) := by
  induction buffer generalizing pos with
  | nil =>
    intro place
    simp only [List.drop_nil]
    rfl
  | cons b rest ih =>
    rw [locateFrom]
    cases hd : digits? (b :: rest) with
    | some digits => exact IsFirst.of_here (by simp [hd])
    | none =>
      refine IsFirst.of_skip 1 ?_ ?_
      · intro place hlt
        obtain rfl : place = 0 := by omega
        simp [hd]
      · have hrest := ih (pos + 1)
        simpa only [Nat.add_assoc, Nat.add_comm 1, List.drop_succ_cons] using hrest

theorem isFirst_locate (buffer : Bytes) : IsFirst (standing? buffer) (locate buffer) := by
  have h := isFirst_locateFrom 0 buffer
  simp only [Nat.zero_add] at h
  exact h

/-- No header that stands in a buffer is missed. -/
theorem exists_locate_of_standsAt (buffer : Bytes) (place : Nat) (digits : Bytes)
    (hs : StandsAt buffer place digits) : ∃ h, locate buffer = some h ∧ h.start ≤ place := by
  have hstands := (standing?_eq_some_iff buffer place _).mpr ⟨digits, hs, rfl⟩
  have hfirst := isFirst_locate buffer
  cases hl : locate buffer with
  | none =>
    rw [hl] at hfirst
    rw [hfirst place] at hstands
    contradiction
  | some h =>
    rw [hl] at hfirst
    obtain ⟨first, hat, hearlier⟩ := hfirst
    obtain ⟨_, _, rfl⟩ := (standing?_eq_some_iff buffer first h).mp hat
    refine ⟨_, rfl, ?_⟩
    apply Nat.le_of_not_lt
    intro hlt
    rw [hearlier place hlt] at hstands
    contradiction

end Header

end NoiseGate

import NoiseGate.Json.Printer
import NoiseGate.Proofs.Decimal.Length

/-!
# Lengths of printed values

How long a printed value is depends on its parts alone: a text takes so many bytes for each
character, a number no more than the longest decimal, and a list what its items take and the bytes
between them. Members that replace others, and the order of members, add nothing to that.
-/

namespace NoiseGate.Json

theorem encodeChar_length_le (c : Char) : (Utf8.encodeChar c).length ≤ 4 := by
  unfold Utf8.encodeChar
  dsimp only
  split
  · exact Nat.succ_le_succ (Nat.zero_le 3)
  split
  · exact Nat.le_add_right 2 2
  split
  · exact Nat.le_add_right 3 1
  · exact Nat.le_refl 4

theorem printChar_length_le (c : Char) : (printChar c).length ≤ 6 := by
  have hutf := encodeChar_length_le c
  unfold printChar
  iterate 7
    split
    · decide
  split
  · rw [List.length_append]
    exact Nat.le_refl 6
  · omega

theorem printText_length_le (s : Text) : (printText s).length ≤ 6 * s.length + 2 := by
  have hchars : (s.flatMap printChar).length ≤ 6 * s.length := by
    induction s with
    | nil => exact Nat.le_refl 0
    | cons c s ih =>
      have hc := printChar_length_le c
      rw [List.flatMap_cons, List.length_append, List.length_cons]
      omega
  simp only [printText, List.length_append, List.length_cons, List.length_nil]
  omega

def Number.Fits : Number → Prop
  | .integer n => n.natAbs ≤ wordMax
  | .real _ size => size.Fits

theorem Number.print_length_le (n : Number) (h : n.Fits) : n.print.length ≤ realTextMax := by
  cases n with
  | integer n =>
    have hword : wordMax < Nat.pow 10 20 := by decide
    have hdigits := decimal_length_le n.natAbs 19 (Nat.lt_of_le_of_lt h hword)
    have hsign : (if n < 0 then ascii "-" else []).length ≤ 1 := by
      split <;> decide
    rw [print, List.length_append, realTextMax, Magnitude.digitsMax]
    omega
  | real negative size => exact realText_length_le negative size h

theorem gather_le (n used : Nat) (digits : Bytes) (h : n ≤ wordMax) :
    (Numeral.gather n used digits).1 ≤ wordMax := by
  fun_induction Numeral.gather n used digits with
  | case1 => exact h
  | case2 n used d rest hle ih => exact ih hle
  | case3 => exact h

def Numeral.real? (t : Numeral) : Option Number := do
  let (whole, used) := gather 0 0 t.whole
  let (n, places) := gather whole 0 t.fraction
  let power : Int := (t.whole.length - used : Nat) - places
  let size ← Magnitude.round n 1
  match t.exponent with
  | none => return .real t.negative (← size.scale power)
  | some (negative, digits) =>
    let e := digitsValue digits
    if exponentMax < e then
      if n = 0 || negative then return .real t.negative Magnitude.zero else none
    else return .real t.negative (← size.scale (if negative then power - e else power + e))

theorem value?_cases (t : Numeral) (n : Number) (h : t.value? = some n) :
    (∃ m, m ≤ wordMax ∧ (n = .integer m ∨ n = .integer (-m))) ∨ t.real? = some n := by
  have hword := gather_le 0 0 t.whole (Nat.zero_le _)
  unfold Numeral.value? at h
  dsimp only at h
  split at h
  · split at h
    · cases h
      exact .inl ⟨_, hword, .inl rfl⟩
    split at h
    · cases h
      exact .inl ⟨_, hword, .inr rfl⟩
    · exact .inr h
  · exact .inr h

theorem real?_fits (t : Numeral) (n : Number) (h : t.real? = some n) : n.Fits := by
  obtain ⟨size, hround, h⟩ := Option.bind_eq_some_iff.mp h
  have hsize := Magnitude.fits_round _ _ _ hround
  have hscaled (power : Int) (hs : (size.scale power).bind (some ∘ Number.real t.negative) = some n) :
      n.Fits := by
    obtain ⟨scaled, hscale, hn⟩ := Option.bind_eq_some_iff.mp hs
    cases hn
    exact Magnitude.fits_scale size power scaled hsize hscale
  split at h
  · exact hscaled _ h
  · rename_i negative digits _
    by_cases hlarge : Numeral.exponentMax < digitsValue digits
    · simp only [if_pos hlarge] at h
      obtain ⟨-, hn⟩ := Option.ite_none_right_eq_some.mp h
      cases hn
      exact Magnitude.fits_zero
    · simp only [if_neg hlarge] at h
      exact hscaled _ h

theorem value?_fits (t : Numeral) (n : Number) (h : t.value? = some n) : n.Fits := by
  obtain ⟨m, hm, rfl | rfl⟩ | hreal := value?_cases t n h
  · exact hm
  · change (-(m : Int)).natAbs ≤ wordMax
    rwa [Int.natAbs_neg]
  · exact real?_fits t n hreal

theorem printItems_cons_length_le (v : Value) (items : List Value) :
    (printItems (v :: items)).length ≤ v.print.length + 1 + (printItems items).length := by
  cases items with
  | nil => exact Nat.le_add_right _ _
  | cons w items =>
    rw [printItems, List.length_append, List.length_cons]
    omega

def membersLength : List (Text × Value) → Nat
  | [] => 0
  | (name, v) :: members => (printText name).length + v.print.length + 2 + membersLength members

@[simp] theorem membersLength_cons (name : Text) (v : Value) (members : List (Text × Value)) :
    membersLength ((name, v) :: members) =
      (printText name).length + v.print.length + 2 + membersLength members := rfl

theorem printMembers_length (members : List (Text × Value)) :
    (printMembers members).length = membersLength members - 1 := by
  induction members with
  | nil => rfl
  | cons member members ih =>
    obtain ⟨name, v⟩ := member
    cases members with
    | nil =>
      simp [printMembers, membersLength]
      omega
    | cons other members =>
      obtain ⟨second, w⟩ := other
      rw [printMembers, List.length_append, List.length_append, List.length_cons, List.length_cons,
        ih]
      simp only [membersLength_cons]
      omega

theorem membersLength_insertMember (name : Text) (v : Value) (members : List (Text × Value)) :
    membersLength (insertMember name v members) ≤ membersLength ((name, v) :: members) := by
  fun_induction insertMember name v members with
  | case1 => exact Nat.le_refl _
  | case2 => simp only [membersLength_cons]; omega
  | case3 => exact Nat.le_refl _
  | case4 other w rest hne hge ih =>
    simp only [membersLength_cons] at ih ⊢
    omega

theorem membersLength_foldl (members ordered : List (Text × Value)) :
    membersLength
        (members.foldl (fun ordered member => insertMember member.1 member.2 ordered) ordered) ≤
      membersLength ordered + membersLength members := by
  induction members generalizing ordered with
  | nil => exact Nat.le_refl _
  | cons member members ih =>
    have hinsert := membersLength_insertMember member.1 member.2 ordered
    have hrest := ih (insertMember member.1 member.2 ordered)
    rw [membersLength_cons] at hinsert ⊢
    exact Nat.le_trans hrest (by omega)

theorem membersLength_orderMembers (members : List (Text × Value)) :
    membersLength (orderMembers members) ≤ membersLength members := by
  have hall := membersLength_foldl members []
  rwa [membersLength, Nat.zero_add] at hall

theorem membersLength_lookup (name : Text) (v : Value) (members : List (Text × Value))
    (h : members.lookup name = some v) : v.print.length < membersLength members := by
  induction members with
  | nil => cases h
  | cons member members ih =>
    obtain ⟨other, w⟩ := member
    rw [membersLength_cons]
    rw [List.lookup_cons] at h
    split at h
    · cases h
      omega
    · have hrest := ih h
      omega

end NoiseGate.Json

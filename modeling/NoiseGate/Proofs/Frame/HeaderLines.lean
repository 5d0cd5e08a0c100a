import Mathlib.Data.List.TakeWhile
import NoiseGate.Frame.Buffered
import NoiseGate.Proofs.Text.Utf8

/-!
# What a header line says

A line is about the length if the name in front of its first colon says so. It then has to give a
count, with or without a plus sign. A line of blanks ends the header block, any other line says
nothing, and a line that is not UTF-8 or gives no count is refused.
-/

namespace NoiseGate

def lengthName : Text := "content-length".toList

/-- What a line gives for the length of the body, if that is what the line is about. -/
def GivesLength (line value : Text) : Prop :=
  ∃ name behind, trim line = name ++ ':' :: behind ∧ ':' ∉ name ∧
    name.map Char.toLower = lengthName ∧ value = trim behind

/-- A count as it is written: a run of digits, with or without a plus sign in front. -/
def Counts (value : Text) (n : Nat) : Prop :=
  ∃ sign digits, value = sign ++ digits ∧ (sign = [] ∨ sign = ['+']) ∧ digits ≠ [] ∧
    (∀ c ∈ digits, c.isDigit = true) ∧ Nat.ofDigitChars 10 digits 0 = n ∧ n < UInt64.size

theorem le_wordMax_iff (n : Nat) : n ≤ wordMax ↔ n < UInt64.size := by
  have hsize : 0 < UInt64.size := by decide
  rw [wordMax]
  omega

theorem le_ofDigitChars (digits : Text) (n : Nat) : n ≤ Nat.ofDigitChars 10 digits n := by
  induction digits generalizing n with
  | nil => exact Nat.le_refl n
  | cons c digits ih =>
    have hrest := ih (10 * n + (c.toNat - '0'.toNat))
    rw [Nat.ofDigitChars_cons]
    omega

theorem readDigits_eq_ok_iff (n : Nat) (text : Text) (m : Nat) (hn : n ≤ wordMax) :
    readDigits n text = .ok m ↔
      (∀ c ∈ text, c.isDigit = true) ∧ Nat.ofDigitChars 10 text n = m ∧ m ≤ wordMax := by
  induction text generalizing n with
  | nil =>
    constructor
    · intro h
      cases h
      exact ⟨by simp, rfl, hn⟩
    · rintro ⟨-, h, -⟩
      exact congrArg Except.ok h
  | cons c text ih =>
    have hzero : '0'.toNat = 48 := rfl
    rw [readDigits, Nat.ofDigitChars_cons, List.forall_mem_cons, hzero]
    by_cases hdigit : c.isDigit = true
    · rw [if_pos hdigit]
      by_cases hword : 10 * n + (c.toNat - 48) ≤ wordMax
      · rw [if_pos hword, ih _ hword]
        simp only [hdigit, true_and]
      · -- the count only grows, so it does not come back into the range
        rw [if_neg hword]
        constructor
        · intro h
          cases h
        · rintro ⟨-, rfl, hle⟩
          exact absurd (Nat.le_trans (le_ofDigitChars text _) hle) hword
    · rw [if_neg hdigit]
      constructor
      · intro h
        cases h
      · rintro ⟨⟨h, -⟩, -⟩
        exact absurd h hdigit

theorem readWord_eq_ok_iff (value : Text) (n : Nat) : readWord value = .ok n ↔ Counts value n := by
  have hplus : ¬ '+'.isDigit = true := by decide
  have hdigits (text : Text) : readDigits 0 text = .ok n ↔
      (∀ c ∈ text, c.isDigit = true) ∧ Nat.ofDigitChars 10 text 0 = n ∧ n < UInt64.size := by
    rw [readDigits_eq_ok_iff 0 text n (Nat.zero_le _), le_wordMax_iff]
  unfold readWord
  split
  · constructor
    · intro h
      cases h
    · rintro ⟨sign, digits, h, -, hne, -⟩
      exact absurd (List.append_eq_nil_iff.mp h.symm).2 hne
  · constructor
    · intro h
      cases h
    · rintro ⟨sign, digits, h, rfl | rfl, hne, hall, -⟩
      · rw [List.nil_append] at h
        subst h
        exact absurd (hall '+' List.mem_cons_self) hplus
      · exact absurd (List.cons.inj h).2.symm hne
  · rename_i rest hrest
    rw [hdigits]
    constructor
    · rintro ⟨hall, hvalue⟩
      exact ⟨['+'], rest, rfl, .inr rfl, fun h => hrest h, hall, hvalue⟩
    · rintro ⟨sign, digits, h, rfl | rfl, hne, hall, hvalue⟩
      · rw [List.nil_append] at h
        subst h
        exact absurd (hall '+' List.mem_cons_self) hplus
      · rw [(List.cons.inj h).2]
        exact ⟨hall, hvalue⟩
  · rename_i hnil _ hcons
    rw [hdigits]
    constructor
    · rintro ⟨hall, hvalue⟩
      exact ⟨[], value, rfl, .inl rfl, hnil, hall, hvalue⟩
    · rintro ⟨sign, digits, h, rfl | rfl, hne, hall, hvalue⟩
      · rw [h]
        exact ⟨hall, hvalue⟩
      · exact absurd h (hcons digits)

theorem lengthField?_of_colon (name behind : Text) (h : ':' ∉ name) :
    lengthField? (name ++ ':' :: behind) =
      if name.map Char.toLower = lengthName then some (trim behind) else none := by
  have hname : ∀ c ∈ name, (decide (c ≠ ':')) = true := by
    intro c hc
    apply decide_eq_true
    rintro rfl
    exact h hc
  have htake : (name ++ ':' :: behind).takeWhile (· ≠ ':') = name := by
    rw [List.takeWhile_append_of_pos hname, List.takeWhile_cons_of_neg (by decide), List.append_nil]
  have hlt : name.length < (name ++ ':' :: behind).length := by simp
  have hdrop : (name ++ ':' :: behind).drop (name.length + 1) = behind := by simp
  simp only [lengthField?, htake, hdrop, hlt, decide_true, Bool.and_true, decide_eq_true_eq]
  rfl

theorem lengthField?_of_no_colon (text : Text) (h : ':' ∉ text) : lengthField? text = none := by
  have hall : ∀ c ∈ text, (decide (c ≠ ':')) = true := by
    intro c hc
    apply decide_eq_true
    rintro rfl
    exact h hc
  have htake : text.takeWhile (· ≠ ':') = text := List.takeWhile_eq_self_iff.mpr hall
  simp only [lengthField?, htake, Nat.lt_irrefl, decide_false, Bool.and_false]
  rfl

theorem lengthField?_eq_some_iff (line value : Text) :
    lengthField? (trim line) = some value ↔ GivesLength line value := by
  unfold GivesLength
  constructor
  · intro h
    by_cases hcolon : ':' ∈ trim line
    · obtain ⟨name, behind, hline, hname⟩ := List.eq_append_cons_of_mem hcolon
      rw [hline, lengthField?_of_colon name behind hname] at h
      obtain ⟨hlower, hvalue⟩ := Option.ite_none_right_eq_some.mp h
      exact ⟨name, behind, hline, hname, hlower, (Option.some.inj hvalue).symm⟩
    · rw [lengthField?_of_no_colon _ hcolon] at h
      cases h
  · rintro ⟨name, behind, hline, hname, hlower, rfl⟩
    rw [hline, lengthField?_of_colon name behind hname, if_pos hlower]

theorem trim_eq_nil_iff (text : Text) : trim text = [] ↔ ∀ c ∈ text, isBlank c = true := by
  rw [trim, trimEnd, List.reverse_eq_nil_iff, List.dropWhile_eq_nil_iff, trimStart]
  constructor
  · intro h
    apply (List.dropWhile_eq_nil_iff).mp
    -- the first character that is left is not blank
    have hhead := List.head?_dropWhile_not isBlank text
    cases hdrop : text.dropWhile isBlank with
    | nil => rfl
    | cons c rest =>
      rw [hdrop] at h hhead
      have hc := h c (by simp)
      simp [hc] at hhead
  · intro h
    rw [(List.dropWhile_eq_nil_iff).mpr h]
    simp

namespace HeaderLine

/-- What a line means, by its text. -/
inductive Says (line : Text) : HeaderLine → Prop
  | blank (hb : ∀ c ∈ line, isBlank c = true) : Says line .blank
  | length (value : Text) (n : Nat) (hv : GivesLength line value) (hn : Counts value n) :
      Says line (.length n)
  | other (hb : trim line ≠ []) (hv : ∀ value, ¬ GivesLength line value) : Says line .other

theorem ofBytes_encode (text : Text) :
    ofBytes (Utf8.encode text) =
      if (trim text).isEmpty then .ok .blank
      else
        match (lengthField? (trim text)).map readWord with
        | some (.ok n) => .ok (.length n)
        | some (.error fault) => .error (.badLength fault)
        | none => .ok .other := by
  have hdecode := Utf8.decode?_encode text
  unfold ofBytes
  generalize Utf8.decode? (Utf8.encode text) = decoded at hdecode
  subst hdecode
  rfl

theorem trim_ne_nil_of_givesLength {line value : Text} (h : GivesLength line value) :
    trim line ≠ [] := by
  obtain ⟨name, behind, hline, -⟩ := h
  rw [hline]
  simp

/-- A line is understood exactly if it is UTF-8 and its text says something. -/
theorem ofBytes_eq_ok_iff (line : Bytes) (meaning : HeaderLine) :
    ofBytes line = .ok meaning ↔ ∃ text, line = Utf8.encode text ∧ Says text meaning := by
  constructor
  · intro h
    cases hdecode : Utf8.decode? line with
    | none =>
      rw [ofBytes, hdecode] at h
      cases h
    | some text =>
      have hline := (Utf8.decode?_eq_some_iff line text).mp hdecode
      refine ⟨text, hline, ?_⟩
      rw [hline, ofBytes_encode] at h
      by_cases hblank : trim text = []
      · simp only [hblank, List.isEmpty_nil, if_true] at h
        cases h
        exact .blank ((trim_eq_nil_iff text).mp hblank)
      · rw [if_neg (by simpa using hblank)] at h
        cases hfield : lengthField? (trim text) with
        | none =>
          rw [hfield] at h
          cases h
          apply Says.other hblank
          intro value hvalue
          rw [(lengthField?_eq_some_iff text value).mpr hvalue] at hfield
          cases hfield
        | some value =>
          have hgives := (lengthField?_eq_some_iff text value).mp hfield
          rw [hfield, Option.map_some] at h
          cases hword : readWord value with
          | error fault =>
            rw [hword] at h
            cases h
          | ok n =>
            rw [hword] at h
            cases h
            exact .length value n hgives ((readWord_eq_ok_iff value n).mp hword)
  · rintro ⟨text, rfl, hmeans⟩
    rw [ofBytes_encode]
    cases hmeans with
    | blank hb => rw [(trim_eq_nil_iff text).mpr hb, List.isEmpty_nil, if_pos rfl]
    | length value n hv hn =>
      rw [if_neg (by simpa using trim_ne_nil_of_givesLength hv),
        (lengthField?_eq_some_iff text value).mpr hv, Option.map_some,
        (readWord_eq_ok_iff value n).mpr hn]
    | other hb hv =>
      have hfield : lengthField? (trim text) = none := by
        apply Option.eq_none_iff_forall_ne_some.mpr
        intro value h
        exact hv value ((lengthField?_eq_some_iff text value).mp h)
      rw [if_neg (by simpa using hb), hfield, Option.map_none]

end HeaderLine

end NoiseGate

import NoiseGate.Text.Digits

/-!
# Decimals

The value of a run of digits does not shrink with more digits behind it. `decimal` writes at least
one digit and nothing but digits. Their value is the number, and there are no more of them than a
number of this size needs.
-/

namespace NoiseGate

theorem isDigit_digitByte (n : Nat) : isDigit (digitByte n) = true := by
  have hall : ∀ m < 10, isDigit (48 + m).toUInt8 = true := by decide
  exact hall (n % 10) (Nat.mod_lt n (by decide))

theorem digitValue_digitByte (n : Nat) : digitValue (digitByte n) = n % 10 := by
  have hall : ∀ m < 10, digitValue (48 + m).toUInt8 = m := by decide
  exact hall (n % 10) (Nat.mod_lt n (by decide))

theorem digitsValue_concat (digits : Bytes) (d : UInt8) :
    digitsValue (digits ++ [d]) = 10 * digitsValue digits + digitValue d := by
  simp [digitsValue]

theorem le_foldl_digits (digits : Bytes) (n : Nat) :
    n ≤ digits.foldl (fun n d => 10 * n + digitValue d) n := by
  induction digits generalizing n with
  | nil => exact Nat.le_refl n
  | cons d digits ih =>
    have h := ih (10 * n + digitValue d)
    rw [List.foldl_cons]
    omega

theorem digitsValue_le_append (digits more : Bytes) :
    digitsValue digits ≤ digitsValue (digits ++ more) := by
  rw [digitsValue, digitsValue, List.foldl_append]
  exact le_foldl_digits more _

theorem decimal_of_lt (n : Nat) (hn : n < 10) : decimal n = [digitByte n] := by
  rw [decimal, if_pos hn]

theorem decimal_of_le (n : Nat) (hn : 10 ≤ n) : decimal n = decimal (n / 10) ++ [digitByte n] := by
  rw [decimal, if_neg (Nat.not_lt.mpr hn)]

theorem decimal_ne_nil (n : Nat) : decimal n ≠ [] := by
  by_cases hn : n < 10
  · simp [decimal_of_lt n hn]
  · simp [decimal_of_le n (Nat.le_of_not_lt hn)]

theorem isDigit_decimal (n : Nat) : ∀ d ∈ decimal n, isDigit d = true := by
  induction n using Nat.strongRecOn with
  | ind n ih =>
    intro d hd
    by_cases hn : n < 10
    · rw [decimal_of_lt n hn] at hd
      rw [List.mem_singleton.mp hd]
      exact isDigit_digitByte n
    · rw [decimal_of_le n (Nat.le_of_not_lt hn)] at hd
      rcases List.mem_append.mp hd with hd | hd
      · exact ih (n / 10) (by omega) d hd
      · rw [List.mem_singleton.mp hd]
        exact isDigit_digitByte n

theorem digitsValue_decimal (n : Nat) : digitsValue (decimal n) = n := by
  induction n using Nat.strongRecOn with
  | ind n ih =>
    by_cases hn : n < 10
    · have hvalue := digitValue_digitByte n
      rw [decimal_of_lt n hn]
      change 10 * 0 + digitValue (digitByte n) = n
      omega
    · have hrest := ih (n / 10) (by omega)
      rw [decimal_of_le n (Nat.le_of_not_lt hn), digitsValue_concat, hrest, digitValue_digitByte]
      omega

theorem decimal_length_le (n places : Nat) (hn : n < Nat.pow 10 (places + 1)) :
    (decimal n).length ≤ places + 1 := by
  induction places generalizing n with
  | zero =>
    rw [decimal_of_lt n hn]
    exact Nat.le_refl 1
  | succ places ih =>
    by_cases hlt : n < 10
    · rw [decimal_of_lt n hlt]
      exact Nat.succ_le_succ (Nat.zero_le _)
    · have hpow : Nat.pow 10 (places + 2) = Nat.pow 10 (places + 1) * 10 := rfl
      have hdiv : n / 10 < Nat.pow 10 (places + 1) := by
        rw [Nat.div_lt_iff_lt_mul (by decide), ← hpow]
        exact hn
      have hrest := ih (n / 10) hdiv
      rw [decimal_of_le n (Nat.le_of_not_lt hlt), List.length_append, List.length_singleton]
      omega

end NoiseGate

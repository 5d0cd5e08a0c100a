import NoiseGate.Proofs.Text.Decimal
import NoiseGate.Text.Blank
import NoiseGate.Text.Utf8
import NoiseGate.Text.Word

/-!
# Plain text

ASCII bytes are well-formed UTF-8 and stand for one character each. A run of ASCII digits is read
as the number that it spells, whatever its leading zeros. Blank characters at the ends of a text
are trimmed, and nothing else is.
-/

namespace NoiseGate

def plainText (bytes : Bytes) : Text := bytes.map fun b => Char.ofNat b.toNat

@[simp] theorem plainText_append (a b : Bytes) :
    plainText (a ++ b) = plainText a ++ plainText b := List.map_append

namespace Utf8

private theorem foldl_push_ascii (bytes : Bytes) (done : List Piece) (hb : ∀ b ∈ bytes, b < 0x80) :
    bytes.foldl Decoder.push ⟨.ground, done⟩ =
      ⟨.ground, ((plainText bytes).map some).reverse ++ done⟩ := by
  induction bytes generalizing done with
  | nil => rfl
  | cons b bytes ih =>
    have hfirst : b < 0x80 := hb b List.mem_cons_self
    have hpush : Decoder.push ⟨.ground, done⟩ b = ⟨.ground, some (Char.ofNat b.toNat) :: done⟩ := by
      simp [Decoder.push, step, lead, hfirst]
    rw [List.foldl_cons, hpush, ih _ fun c hc => hb c (List.mem_cons_of_mem b hc)]
    simp [plainText]

private theorem mapM_some (text : Text) : (text.map some).mapM id = some text := by
  induction text with
  | nil => rfl
  | cons c text ih =>
    rw [List.map_cons, List.mapM_cons, ih]
    rfl

theorem decode?_ascii (bytes : Bytes) (hb : ∀ b ∈ bytes, b < 0x80) :
    decode? bytes = some (plainText bytes) := by
  rw [decode?, pieces, Decoder.start, foldl_push_ascii bytes [] hb]
  simp only [Decoder.finish, List.append_nil, List.reverse_reverse]
  exact mapM_some _

end Utf8

theorem forall_isDigit {P : UInt8 → Prop} (h : ∀ n < 10, P (UInt8.ofNat (48 + n))) (d : UInt8)
    (hd : isDigit d = true) : P d := by
  simp only [isDigit, Bool.and_eq_true, decide_eq_true_eq, UInt8.le_iff_toNat_le] at hd
  change 48 ≤ d.toNat ∧ d.toNat ≤ 57 at hd
  have hp := h (d.toNat - 48) (by omega)
  rwa [Nat.add_sub_cancel' hd.1, UInt8.ofNat_toNat] at hp

theorem isDigit_lt_ascii : ∀ d, isDigit d = true → d < 0x80 :=
  forall_isDigit (by decide)

theorem isBlank_digit : ∀ d, isDigit d = true → isBlank (Char.ofNat d.toNat) = false :=
  forall_isDigit (by decide)

private theorem digit_char : ∀ d, isDigit d = true → Char.ofNat d.toNat ≠ '+' ∧
    (Char.ofNat d.toNat).isDigit = true ∧ (Char.ofNat d.toNat).toNat - 48 = digitValue d :=
  forall_isDigit (by decide)

private theorem readDigits_plainText (digits : Bytes) (n : Nat)
    (hd : ∀ d ∈ digits, isDigit d = true)
    (hv : digits.foldl (fun n d => 10 * n + digitValue d) n ≤ wordMax) :
    readDigits n (plainText digits) =
      .ok (digits.foldl (fun n d => 10 * n + digitValue d) n) := by
  induction digits generalizing n with
  | nil => rfl
  | cons d digits ih =>
    obtain ⟨_, hdigit, hvalue⟩ := digit_char d (hd d List.mem_cons_self)
    have hrest : ∀ c ∈ digits, isDigit c = true := fun c hc => hd c (List.mem_cons_of_mem d hc)
    rw [List.foldl_cons] at hv ⊢
    -- a value never shrinks, so every value on the way is a word if the last one is
    have hword : 10 * n + digitValue d ≤ wordMax := Nat.le_trans (le_foldl_digits digits _) hv
    change readDigits n (Char.ofNat d.toNat :: plainText digits) = _
    rw [readDigits, if_pos hdigit, hvalue, if_pos hword]
    exact ih _ hrest hv

theorem readWord_plainText (digits : Bytes) (hne : digits ≠ []) (hd : ∀ d ∈ digits, isDigit d = true)
    (hv : digitsValue digits ≤ wordMax) : readWord (plainText digits) = .ok (digitsValue digits) := by
  have hread := readDigits_plainText digits 0 hd hv
  cases digits with
  | nil => contradiction
  | cons d digits =>
    have hplus := (digit_char d (hd d List.mem_cons_self)).1
    change readWord (Char.ofNat d.toNat :: plainText digits) = _
    unfold readWord
    split
    · contradiction
    · rename_i heq
      exact absurd (List.cons.inj heq).1 hplus
    · rename_i heq
      exact absurd (List.cons.inj heq).1 hplus
    · exact hread

private theorem dropWhile_blanks (front text : Text) (hf : ∀ c ∈ front, isBlank c = true)
    (hh : ∀ c, text.head? = some c → isBlank c = false) :
    (front ++ text).dropWhile isBlank = text := by
  rw [List.dropWhile_append_of_pos hf]
  cases text with
  | nil => rfl
  | cons c text =>
    have hc : isBlank c = false := hh c rfl
    exact List.dropWhile_cons_of_neg (by simp [hc])

theorem trim_blanks (front text back : Text) (hne : text ≠ []) (hf : ∀ c ∈ front, isBlank c = true)
    (hb : ∀ c ∈ back, isBlank c = true) (hh : ∀ c, text.head? = some c → isBlank c = false)
    (hl : ∀ c, text.getLast? = some c → isBlank c = false) :
    trim (front ++ (text ++ back)) = text := by
  have hhead : ∀ c, (text ++ back).head? = some c → isBlank c = false := by
    obtain ⟨first, rest, rfl⟩ := List.exists_cons_of_ne_nil hne
    exact hh
  have hback : ∀ c ∈ back.reverse, isBlank c = true := fun c hc => hb c (List.mem_reverse.mp hc)
  have hlast : ∀ c, text.reverse.head? = some c → isBlank c = false := by
    intro c hc
    rw [List.head?_reverse] at hc
    exact hl c hc
  rw [trim, trimStart, dropWhile_blanks front _ hf hhead, trimEnd, List.reverse_append,
    dropWhile_blanks _ _ hback hlast, List.reverse_reverse]

end NoiseGate

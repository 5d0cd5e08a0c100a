import NoiseGate.Proofs.Text.Utf8
import NoiseGate.Text.Noise

/-!
# Noise text cannot drive a terminal

Whatever the bytes are, no control character that a terminal would obey is left in their noise
text. A text without such characters is its own noise text, and in any other text only they are
replaced, each by an escape that spells its code.
-/

namespace NoiseGate

/-- A terminal obeys control characters. Line feeds and tabs do no harm. -/
def IsObeyed (c : Char) : Prop := isControl c = true ∧ c ≠ '\n' ∧ c ≠ '\t'

instance (c : Char) : Decidable (IsObeyed c) :=
  inferInstanceAs (Decidable (isControl c = true ∧ c ≠ '\n' ∧ c ≠ '\t'))

theorem harmless_of_all {text : Text} (h : (text.all fun c => decide (¬ IsObeyed c)) = true) :
    ∀ c ∈ text, ¬ IsObeyed c :=
  fun c hc => of_decide_eq_true (List.all_eq_true.mp h c hc)

/-! ### Escapes -/

def hexDigits : Text := "0123456789abcdef".toList

def hexValue (digits : Text) : Nat := digits.foldl (fun n d => 16 * n + hexDigits.idxOf d) 0

/-- A letter for a carriage return, and for others the code between braces, in hexadecimal digits
without leading zeros. -/
inductive IsEscape : Char → Text → Prop
  | letter : IsEscape '\r' ['\\', 'r']
  | code (c : Char) (digits : Text) (other : c ≠ '\r') (hex : ∀ d ∈ digits, d ∈ hexDigits)
      (short : digits.head? = some '0' → digits = ['0']) (value : hexValue digits = c.toNat) :
      IsEscape c (['\\', 'u', '\x7b'] ++ digits ++ ['\x7d'])

private theorem digitChar_hex : ∀ n < 16, Nat.digitChar n ∈ hexDigits ∧
    hexDigits.idxOf (Nat.digitChar n) = n := by
  decide

theorem hexValue_concat (digits : Text) (d : Char) :
    hexValue (digits ++ [d]) = 16 * hexValue digits + hexDigits.idxOf d := by
  simp [hexValue]

theorem mem_hexDigits_of_mem_toDigits (n : Nat) : ∀ d ∈ Nat.toDigits 16 n, d ∈ hexDigits := by
  induction n using Nat.strongRecOn with
  | ind n ih =>
    intro d hd
    by_cases hn : n < 16
    · rw [Nat.toDigits_of_lt_base hn] at hd
      rw [List.mem_singleton.mp hd]
      exact (digitChar_hex n hn).1
    · rw [Nat.toDigits_of_base_le (by decide) (Nat.le_of_not_lt hn)] at hd
      rcases List.mem_append.mp hd with hd | hd
      · exact ih (n / 16) (by omega) d hd
      · rw [List.mem_singleton.mp hd]
        exact (digitChar_hex (n % 16) (Nat.mod_lt n (by decide))).1

theorem hexValue_toDigits (n : Nat) : hexValue (Nat.toDigits 16 n) = n := by
  induction n using Nat.strongRecOn with
  | ind n ih =>
    by_cases hn : n < 16
    · rw [Nat.toDigits_of_lt_base hn, ← List.nil_append [_], hexValue_concat, (digitChar_hex n hn).2]
      exact Nat.zero_add n
    · have hlast := (digitChar_hex (n % 16) (Nat.mod_lt n (by decide))).2
      rw [Nat.toDigits_of_base_le (by decide) (Nat.le_of_not_lt hn), hexValue_concat,
        ih (n / 16) (by omega), hlast]
      exact Nat.div_add_mod n 16

theorem toDigits_eq_zero_of_head? (n : Nat) (h : (Nat.toDigits 16 n).head? = some '0') :
    Nat.toDigits 16 n = ['0'] := by
  induction n using Nat.strongRecOn with
  | ind n ih =>
    by_cases hn : n < 16
    · rw [Nat.toDigits_of_lt_base hn] at h ⊢
      rw [Option.some.inj h]
    · rw [Nat.toDigits_of_base_le (by decide) (Nat.le_of_not_lt hn)] at h
      obtain ⟨d, front, hfront⟩ := List.exists_cons_of_ne_nil (Nat.toDigits_ne_nil (n := n / 16))
      have hhead : (Nat.toDigits 16 (n / 16)).head? = some '0' := by
        rw [hfront] at h ⊢
        exact h
      have hvalue := hexValue_toDigits (n / 16)
      rw [ih (n / 16) (by omega) hhead] at hvalue
      change 0 = n / 16 at hvalue
      omega

theorem escapeControl_isEscape (c : Char) : IsEscape c (escapeControl c) := by
  unfold escapeControl
  by_cases hc : c = '\r'
  · rw [if_pos hc, hc]
    exact .letter
  · rw [if_neg hc]
    exact .code c _ hc (mem_hexDigits_of_mem_toDigits _) (toDigits_eq_zero_of_head? _)
      (hexValue_toDigits _)

theorem IsEscape.harmless {c : Char} {escape : Text} (h : IsEscape c escape) :
    ∀ d ∈ escape, ¬ IsObeyed d := by
  cases h with
  | letter => exact harmless_of_all (by decide)
  | code c digits other hex short value =>
    have hdigits : ∀ d ∈ hexDigits, ¬ IsObeyed d := harmless_of_all (by decide)
    rw [List.forall_mem_append, List.forall_mem_append]
    refine ⟨⟨harmless_of_all (by decide), ?_⟩, harmless_of_all (by decide)⟩
    intro d hd
    exact hdigits d (hex d hd)

/-! ### Shown texts -/

theorem showChar_eq (c : Char) : showChar c = if IsObeyed c then escapeControl c else [c] := by
  unfold showChar IsObeyed
  congr 1
  simp [and_assoc]

theorem showText_of_harmless (text : Text) (h : ∀ c ∈ text, ¬ IsObeyed c) :
    showText text = text := by
  induction text with
  | nil => rfl
  | cons c text ih =>
    obtain ⟨hc, htext⟩ := List.forall_mem_cons.mp h
    have hrest := ih htext
    rw [showText] at hrest ⊢
    rw [List.flatMap_cons, showChar_eq, if_neg hc, hrest]
    rfl

theorem showText_harmless (text : Text) : ∀ c ∈ showText text, ¬ IsObeyed c := by
  intro c hc
  obtain ⟨d, -, hd⟩ := List.mem_flatMap.mp hc
  rw [showChar_eq] at hd
  by_cases hobeyed : IsObeyed d
  · rw [if_pos hobeyed] at hd
    exact (escapeControl_isEscape d).harmless c hd
  · rw [if_neg hobeyed] at hd
    rwa [List.mem_singleton.mp hd]

/-! ### Decoded noise -/

theorem decodeLossy_encode_append (text : Text) (bytes : Bytes) :
    Utf8.decodeLossy (Utf8.encode text ++ bytes) = text ++ Utf8.decodeLossy bytes := by
  simp only [Utf8.decodeLossy, Utf8.pieces_eq_piecesFrom, Utf8.piecesFrom_encode, List.map_append,
    List.map_map]
  congr 1
  exact List.map_id text

theorem noiseText_encode_append (text : Text) (bytes : Bytes) :
    noiseText (Utf8.encode text ++ bytes) = showText text ++ noiseText bytes := by
  rw [noiseText, decodeLossy_encode_append]
  exact List.flatMap_append

theorem noiseText_encode (text : Text) : noiseText (Utf8.encode text) = showText text := by
  have h := noiseText_encode_append text []
  rwa [List.append_nil, show noiseText [] = [] from rfl, List.append_nil] at h

/-- Noise text is free of what a terminal obeys. It is the text itself where that is, with escapes
for the rest, it can be taken of the bytes piece by piece between characters, and it stays the same
when it is taken for noise again. -/
theorem noiseText_safe_faithful_stable (bytes : Bytes) (text : Text) :
    (∀ c ∈ noiseText bytes, ¬ IsObeyed c) ∧
    (noiseText (Utf8.encode text) =
        text.flatMap fun c => if IsObeyed c then escapeControl c else [c]) ∧
    (∀ c, IsEscape c (escapeControl c)) ∧
    ((∀ c ∈ text, ¬ IsObeyed c) → noiseText (Utf8.encode text) = text) ∧
    noiseText (Utf8.encode text ++ bytes) = noiseText (Utf8.encode text) ++ noiseText bytes ∧
    noiseText (Utf8.encode (noiseText bytes)) = noiseText bytes := by
  refine ⟨showText_harmless _, ?_, escapeControl_isEscape, ?_, ?_, ?_⟩
  · rw [noiseText_encode, showText]
    congr 1
    funext c
    exact showChar_eq c
  · intro h
    rw [noiseText_encode]
    exact showText_of_harmless text h
  · rw [noiseText_encode_append, noiseText_encode]
  · rw [noiseText_encode]
    exact showText_of_harmless _ (showText_harmless _)

/-- A red word, a character cut short, a control character spelled in two bytes, and an overlong
slash, behind a text with a tab and a line feed. -/
theorem noiseText_of_colored_word :
    let bytes := ascii "\x1b[31mred" ++ [0xE2, 0x82, 0xC2, 0x9B, 0xC0, 0xAF]
    let text := "a\tü\n".toList
    (∀ c ∈ text, ¬ IsObeyed c) ∧
      noiseText bytes = "\\u\x7b1b\x7d[31mred\uFFFD\\u\x7b9b\x7d\uFFFD\uFFFD".toList ∧
      noiseText (Utf8.encode text ++ bytes) = text ++ noiseText bytes ∧
      noiseText (Utf8.encode (noiseText bytes)) = noiseText bytes := by
  intro bytes text
  have htext : ∀ c ∈ text, ¬ IsObeyed c := harmless_of_all (by decide)
  obtain ⟨-, -, -, hplain, happend, hagain⟩ := noiseText_safe_faithful_stable bytes text
  refine ⟨htext, by decide +kernel, ?_, hagain⟩
  rw [happend, hplain htext]

end NoiseGate

import NoiseGate.Json.Printer
import NoiseGate.Proofs.Text.Decimal
import NoiseGate.Proofs.Text.Utf8

/-!
# Printed texts and numbers are read back

A printed text is read as escapes and bytes that mean the same text, whatever its characters are. A
printed integer is read as itself, if nothing behind it continues the numeral.
-/

namespace NoiseGate.Json

/-! ### Texts -/

def IsEscaped (c : Char) : Prop := c = '"' ∨ c = '\\' ∨ c.toNat < 32

instance (c : Char) : Decidable (IsEscaped c) :=
  inferInstanceAs (Decidable (_ ∨ _))

/-- How a printed character is read. -/
def rawChar (c : Char) : RawString :=
  if IsEscaped c then [.unit c.toNat] else (Utf8.encodeChar c).map .raw

def rawText (s : Text) : RawString := s.flatMap rawChar

theorem isEscaped_lt {c : Char} (h : IsEscaped c) : c.toNat < 0xD800 := by
  rcases h with rfl | rfl | h
  · decide
  · decide
  · omega

theorem printChar_of_isEscaped (c : Char) (h : IsEscaped c) :
    (∃ e, e ≠ 117 ∧ shortEscape? e = some c.toNat ∧ printChar c = [92, e]) ∨
      c.toNat < 32 ∧ printChar c =
        [92, 117, 48, 48, hexByte (c.toNat / 16), hexByte (c.toNat % 16)] := by
  by_cases hquote : c = '"'
  · subst c
    exact .inl ⟨34, by decide, rfl, rfl⟩
  by_cases hslash : c = '\\'
  · subst c
    exact .inl ⟨92, by decide, rfl, rfl⟩
  have hcontrol : c.toNat < 32 := (h.resolve_left hquote).resolve_left hslash
  by_cases hback : c.toNat = 8
  · obtain rfl : c = Char.ofNat 8 := Char.toNat_inj.mp hback
    exact .inl ⟨98, by decide, rfl, rfl⟩
  by_cases hform : c.toNat = 12
  · obtain rfl : c = Char.ofNat 12 := Char.toNat_inj.mp hform
    exact .inl ⟨102, by decide, rfl, rfl⟩
  by_cases hline : c = '\n'
  · subst c
    exact .inl ⟨110, by decide, rfl, rfl⟩
  by_cases hreturn : c = '\r'
  · subst c
    exact .inl ⟨114, by decide, rfl, rfl⟩
  by_cases htab : c = '\t'
  · subst c
    exact .inl ⟨116, by decide, rfl, rfl⟩
  · refine .inr ⟨hcontrol, ?_⟩
    rw [printChar, if_neg hquote, if_neg hslash, if_neg hback, if_neg hform, if_neg hline,
      if_neg hreturn, if_neg htab, if_pos hcontrol]
    rfl

theorem printChar_of_not_isEscaped (c : Char) (h : ¬ IsEscaped c) :
    printChar c = Utf8.encodeChar c := by
  obtain ⟨hquote, hslash, hcontrol⟩ : c ≠ '"' ∧ c ≠ '\\' ∧ ¬ c.toNat < 32 := by
    simpa only [IsEscaped, not_or] using h
  have hnot (code : Nat) (hcode : code < 32) : c.toNat ≠ code := by omega
  have hchar (d : Char) (hd : d.toNat < 32) : c ≠ d := by
    rintro rfl
    exact hcontrol hd
  rw [printChar, if_neg hquote, if_neg hslash, if_neg (hnot 8 (by decide)),
    if_neg (hnot 12 (by decide)), if_neg (hchar '\n' (by decide)), if_neg (hchar '\r' (by decide)),
    if_neg (hchar '\t' (by decide)), if_neg hcontrol]

def IsPlain (b : UInt8) : Prop := b ≠ 34 ∧ b ≠ 92 ∧ ¬ b < 32

theorem isPlain_of_le (b : UInt8) (hcontrol : 32 ≤ b.toNat) (hquote : b.toNat ≠ 34)
    (hslash : b.toNat ≠ 92) : IsPlain b := by
  refine ⟨?_, ?_, ?_⟩
  · rintro rfl
    exact hquote rfl
  · rintro rfl
    exact hslash rfl
  · intro hlt
    exact absurd (UInt8.lt_iff_toNat_lt.mp hlt) (Nat.not_lt.mpr hcontrol)

theorem isPlain_encodeChar (c : Char) (h : ¬ IsEscaped c) :
    ∀ b ∈ Utf8.encodeChar c, IsPlain b := by
  obtain ⟨hquote, hslash, hcontrol⟩ : c ≠ '"' ∧ c ≠ '\\' ∧ ¬ c.toNat < 32 := by
    simpa only [IsEscaped, not_or] using h
  have hnotQuote : c.toNat ≠ 34 := fun hc => hquote (Char.toNat_inj.mp hc)
  have hnotSlash : c.toNat ≠ 92 := fun hc => hslash (Char.toNat_inj.mp hc)
  have hhigh (b : UInt8) (hb : 0x80 ≤ b.toNat) : IsPlain b :=
    isPlain_of_le b (by omega) (by omega) (by omega)
  have hspelled := Utf8.encodeChar_spelled c
  generalize Utf8.encodeChar c = bytes at hspelled ⊢
  generalize c.toNat = n at hcontrol hnotQuote hnotSlash hspelled
  cases hspelled with
  | one a n ha code =>
    subst code
    have ha := isPlain_of_le a (Nat.not_lt.mp hcontrol) hnotQuote hnotSlash
    simpa using ha
  | two a b n low high hb code =>
    simp [hhigh a (by omega), hhigh b hb.1]
  | three a b c n low high hb hc long surrogate code =>
    simp [hhigh a (by omega), hhigh b hb.1, hhigh c hc.1]
  | four a b c d n low high hb hc hd long last code =>
    simp [hhigh a (by omega), hhigh b hb.1, hhigh c hc.1, hhigh d hd.1]

theorem readString_letter (parts : RawString) (e : UInt8) (rest : Bytes) (code : Nat)
    (he : e ≠ 117) (hc : shortEscape? e = some code) :
    readString parts (92 :: e :: rest) = readString (.unit code :: parts) rest := by
  rw [readString]
  · rw [hc]
  · intro a b c d rest' h
    exact absurd h he

theorem readString_code (parts : RawString) (n : Nat) (rest : Bytes) (hn : n < 32) :
    readString parts (92 :: 117 :: 48 :: 48 :: hexByte (n / 16) :: hexByte (n % 16) :: rest) =
      readString (.unit n :: parts) rest := by
  have hall : ∀ n < 32, hexUnit? 48 48 (hexByte (n / 16)) (hexByte (n % 16)) = some n := by decide
  rw [readString, hall n hn]

theorem readString_plain (parts : RawString) (bytes rest : Bytes) (h : ∀ b ∈ bytes, IsPlain b) :
    readString parts (bytes ++ rest) = readString ((bytes.map .raw).reverse ++ parts) rest := by
  induction bytes generalizing parts with
  | nil => rfl
  | cons b bytes ih =>
    obtain ⟨hquote, hslash, hcontrol⟩ := h b List.mem_cons_self
    have hrest := ih (.raw b :: parts) fun other ho => h other (List.mem_cons_of_mem _ ho)
    rw [List.cons_append, readString, if_neg hcontrol, hrest]
    · simp
    · exact hquote
    · intro a b c d rest' hb
      exact absurd hb hslash
    · intro e rest' hb
      exact absurd hb hslash

theorem readString_printChar (parts : RawString) (c : Char) (rest : Bytes) :
    readString parts (printChar c ++ rest) = readString ((rawChar c).reverse ++ parts) rest := by
  by_cases h : IsEscaped c
  · rw [rawChar, if_pos h]
    rcases printChar_of_isEscaped c h with ⟨e, he, hcode, hprint⟩ | ⟨hcontrol, hprint⟩
    · rw [hprint]
      exact readString_letter parts e rest c.toNat he hcode
    · rw [hprint]
      exact readString_code parts c.toNat rest hcontrol
  · rw [rawChar, if_neg h, printChar_of_not_isEscaped c h]
    exact readString_plain parts _ rest (isPlain_encodeChar c h)

theorem readString_printText (parts : RawString) (s : Text) (rest : Bytes) :
    readString parts (s.flatMap printChar ++ 34 :: rest) =
      some (parts.reverse ++ rawText s, rest) := by
  induction s generalizing parts with
  | nil =>
    show readString parts (34 :: rest) = _
    rw [readString]
    simp [rawText]
  | cons c s ih =>
    rw [List.flatMap_cons, List.append_assoc, readString_printChar, ih]
    simp [rawText]

theorem stringBytes?_unit (code : Nat) (rest : RawString) (h : code < 0xD800) :
    stringBytes? (.unit code :: rest) =
      (stringBytes? rest).map (Utf8.encodeChar (Char.ofNat code) ++ ·) := by
  have hhigh : ¬ (0xD800 ≤ code ∧ code < 0xDC00) := by omega
  have hlow : ¬ (0xDC00 ≤ code ∧ code < 0xE000) := by omega
  have hboth : ¬ (0xD800 ≤ code ∧ code < 0xE000) := by omega
  match rest with
  | [] => simp only [stringBytes?, if_neg hboth]
  | .raw b :: rest => simp only [stringBytes?, if_neg hboth]
  | .unit low :: rest => rw [stringBytes?, if_neg hhigh, if_neg hlow]

theorem stringBytes?_raw (bytes : Bytes) (rest : RawString) :
    stringBytes? (bytes.map .raw ++ rest) = (stringBytes? rest).map (bytes ++ ·) := by
  induction bytes with
  | nil => simp
  | cons b bytes ih =>
    rw [List.map_cons, List.cons_append, stringBytes?, ih, Option.map_map]
    rfl

theorem stringBytes?_rawText (s : Text) : stringBytes? (rawText s) = some (Utf8.encode s) := by
  induction s with
  | nil => rfl
  | cons c s ih =>
    have hcons : stringBytes? (rawText (c :: s)) =
        (stringBytes? (rawText s)).map (Utf8.encodeChar c ++ ·) := by
      rw [rawText, List.flatMap_cons, rawChar]
      by_cases h : IsEscaped c
      · rw [if_pos h]
        have hunit := stringBytes?_unit c.toNat (rawText s) (isEscaped_lt h)
        rwa [Char.ofNat_toNat] at hunit
      · rw [if_neg h]
        exact stringBytes?_raw _ _
    rw [hcons, ih]
    rfl

theorem text?_rawText (s : Text) : text? (rawText s) = some s := by
  rw [text?, stringBytes?_rawText]
  exact Utf8.decode?_encode s

/-! ### Integers -/

/-- What stands behind a numeral and is no part of it. -/
def EndsNumeral (rest : Bytes) : Prop :=
  ∀ b ∈ rest.head?, isDigit b = false ∧ b ≠ 46 ∧ b ≠ 101 ∧ b ≠ 69

theorem endsNumeral_nil : EndsNumeral [] := nofun

theorem endsNumeral_cons (b : UInt8) (rest : Bytes)
    (hb : isDigit b = false ∧ b ≠ 46 ∧ b ≠ 101 ∧ b ≠ 69) : EndsNumeral (b :: rest) := by
  intro first hfirst
  cases hfirst
  exact hb

/-- The integers of 64 bits, with a sign or without one. -/
def IsWord (n : Int) : Prop := -9223372036854775808 ≤ n ∧ n ≤ 18446744073709551615

instance (n : Int) : Decidable (IsWord n) :=
  inferInstanceAs (Decidable (_ ∧ _))

def Numeral.ofInt (n : Int) : Numeral := ⟨decide (n < 0), decimal n.natAbs, [], none⟩

theorem head?_decimal (n : Nat) (hn : 0 < n) : (decimal n).head? ≠ some 48 := by
  induction n using Nat.strongRecOn with
  | ind n ih =>
    by_cases hlt : n < 10
    · have hall : ∀ m < 10, 0 < m → digitByte m ≠ 48 := by decide
      rw [decimal_of_lt n hlt]
      intro h
      exact hall n hlt hn (Option.some.inj h)
    · have hrest := ih (n / 10) (by omega) (by omega)
      obtain ⟨d, ds, hd⟩ := List.exists_cons_of_ne_nil (decimal_ne_nil (n / 10))
      rw [decimal_of_le n (Nat.le_of_not_lt hlt)]
      rw [hd] at hrest ⊢
      exact hrest

theorem takeWhile_decimal (n : Nat) (rest : Bytes) (h : EndsNumeral rest) :
    (decimal n ++ rest).takeWhile isDigit = decimal n := by
  have hrest : rest.takeWhile isDigit = [] := by
    cases rest with
    | nil => rfl
    | cons b rest => exact List.takeWhile_cons_of_neg (by simp [(h b rfl).1])
  rw [List.takeWhile_append_of_pos (isDigit_decimal n), hrest, List.append_nil]

theorem numeral_read_decimal (negative : Bool) (n : Nat) (rest : Bytes) (h : EndsNumeral rest) :
    Numeral.read ((if negative then [45] else []) ++ (decimal n ++ rest)) =
      some (⟨negative, decimal n, [], none⟩, rest) := by
  have hlen : (decimal n).head? = some 48 → (decimal n).length = 1 := by
    intro hzero
    rcases Nat.eq_zero_or_pos n with rfl | hpos
    · rw [decimal_of_lt 0 (by decide), List.length_singleton]
    · exact absurd hzero (head?_decimal n hpos)
  have hwhole : ((decimal n).isEmpty ||
      ((decimal n).head? = some 48 && (decimal n).length ≠ 1)) = false := by
    simpa [decimal_ne_nil] using hlen
  have hfraction : Numeral.readFraction rest = some ([], rest) := by
    cases rest with
    | nil => rfl
    | cons b rest =>
      obtain ⟨-, hpoint, -⟩ := h b rfl
      rw [Numeral.readFraction]
      intro rest' hb
      exact hpoint (List.cons.inj hb).1
  have hexponent : Numeral.readExponent rest = some (none, rest) := by
    cases rest with
    | nil => rfl
    | cons b rest =>
      obtain ⟨-, -, hsmall, hlarge⟩ := h b rfl
      unfold Numeral.readExponent
      dsimp only
      rw [if_neg (not_or.mpr ⟨hsmall, hlarge⟩)]
  unfold Numeral.read
  split
  rename_i sign behind hsign
  obtain ⟨rfl, rfl⟩ : sign = negative ∧ behind = decimal n ++ rest := by
    cases negative with
    | true =>
      cases hsign
      exact ⟨rfl, rfl⟩
    | false =>
      obtain ⟨d, ds, hd⟩ := List.exists_cons_of_ne_nil (decimal_ne_nil n)
      have hdigit : isDigit d = true := isDigit_decimal n d (hd ▸ List.mem_cons_self)
      split at hsign
      · rename_i behind' heq
        rw [hd] at heq
        cases heq
        cases hdigit
      · cases hsign
        exact ⟨rfl, rfl⟩
  dsimp only
  rw [takeWhile_decimal n rest h, hwhole, List.drop_left, hfraction]
  dsimp only [Option.bind_eq_bind, Option.bind_some]
  rw [hexponent]
  rfl

theorem gather_of_le (n used : Nat) (digits : Bytes)
    (h : digits.foldl (fun n d => 10 * n + digitValue d) n ≤ wordMax) :
    Numeral.gather n used digits =
      (digits.foldl (fun n d => 10 * n + digitValue d) n, used + digits.length) := by
  induction digits generalizing n used with
  | nil => rfl
  | cons d digits ih =>
    rw [List.foldl_cons] at h ⊢
    have hfirst := Nat.le_trans (le_foldl_digits digits _) h
    rw [Numeral.gather, if_pos hfirst, ih _ _ h, List.length_cons, Nat.add_assoc, Nat.add_comm 1]

theorem gather_decimal (n : Nat) (hn : n ≤ wordMax) :
    Numeral.gather 0 0 (decimal n) = (n, (decimal n).length) := by
  have hvalue : (decimal n).foldl (fun n d => 10 * n + digitValue d) 0 = n := digitsValue_decimal n
  rw [gather_of_le 0 0 _ (hvalue.symm ▸ hn), hvalue, Nat.zero_add]

theorem value?_ofInt (n : Int) (h : IsWord n) : (Numeral.ofInt n).value? = some (.integer n) := by
  obtain ⟨hlow, hhigh⟩ := h
  have hword : n.natAbs ≤ wordMax := by
    have hmax : wordMax = 18446744073709551615 := rfl
    omega
  rw [Numeral.value?, Numeral.ofInt]
  dsimp only
  rw [gather_decimal _ hword]
  dsimp only
  rw [Nat.sub_self]
  by_cases hn : n < 0
  · have hpos : 0 < n.natAbs := by omega
    have hhalf : n.natAbs ≤ UInt64.size / 2 := by
      have hsize : UInt64.size / 2 = 9223372036854775808 := rfl
      omega
    have habs : -(n.natAbs : Int) = n := by omega
    simp only [List.isEmpty_nil, Option.isNone_none, Bool.and_self, decide_true, ↓reduceIte, hn,
      Bool.not_true, Bool.false_eq_true, hpos, hhalf, habs, Option.pure_def]
  · have habs : (n.natAbs : Int) = n := by omega
    simp only [List.isEmpty_nil, Option.isNone_none, Bool.and_self, decide_true, ↓reduceIte, hn,
      decide_false, Bool.not_false, habs, Option.pure_def]

/-- A printed integer is read as itself. -/
theorem numeral_read_print (n : Int) (rest : Bytes) (h : EndsNumeral rest) :
    Numeral.read ((Number.integer n).print ++ rest) = some (Numeral.ofInt n, rest) := by
  have hread := numeral_read_decimal (decide (n < 0)) n.natAbs rest h
  by_cases hn : n < 0
  · rw [decide_eq_true hn] at hread
    rw [Number.print, Numeral.ofInt, if_pos hn, decide_eq_true hn, List.append_assoc]
    exact hread
  · rw [decide_eq_false hn] at hread
    rw [Number.print, Numeral.ofInt, if_neg hn, decide_eq_false hn, List.append_assoc]
    exact hread

end NoiseGate.Json

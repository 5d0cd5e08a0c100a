import NoiseGate.Text.Utf8

/-!
# UTF-8 is one spelling for each text

Bytes are decoded without a malformed run exactly if they are the encoding of a text, and then they
are decoded as that text. `Spelled` gives the ranges that the bytes of a character lie in. The
encoder keeps to them, and the decoder takes whatever keeps to them and nothing else.
-/

namespace NoiseGate.Utf8

@[simp] theorem encode_nil : encode [] = [] := rfl

@[simp] theorem encode_cons (c : Char) (text : Text) :
    encode (c :: text) = encodeChar c ++ encode text := rfl

@[simp] theorem encode_append (a b : Text) : encode (a ++ b) = encode a ++ encode b :=
  List.flatMap_append

/-! ### The bytes of a character -/

def IsTail (b : UInt8) : Prop := 0x80 ≤ b.toNat ∧ b.toNat ≤ 0xBF

/-- The bytes of a character and its code. No code has two spellings, and surrogates have none. -/
inductive Spelled : Bytes → Nat → Prop
  | one (a : UInt8) (n : Nat) (ha : a.toNat < 0x80) (code : n = a.toNat) : Spelled [a] n
  | two (a b : UInt8) (n : Nat) (low : 0xC2 ≤ a.toNat) (high : a.toNat < 0xE0) (hb : IsTail b)
      (code : n = (a.toNat - 0xC0) * 64 + (b.toNat - 0x80)) : Spelled [a, b] n
  | three (a b c : UInt8) (n : Nat) (low : 0xE0 ≤ a.toNat) (high : a.toNat < 0xF0) (hb : IsTail b)
      (hc : IsTail c) (long : a.toNat = 0xE0 → 0xA0 ≤ b.toNat)
      (surrogate : a.toNat = 0xED → b.toNat ≤ 0x9F)
      (code : n = ((a.toNat - 0xE0) * 64 + (b.toNat - 0x80)) * 64 + (c.toNat - 0x80)) :
      Spelled [a, b, c] n
  | four (a b c d : UInt8) (n : Nat) (low : 0xF0 ≤ a.toNat) (high : a.toNat < 0xF5) (hb : IsTail b)
      (hc : IsTail c) (hd : IsTail d) (long : a.toNat = 0xF0 → 0x90 ≤ b.toNat)
      (last : a.toNat = 0xF4 → b.toNat ≤ 0x8F)
      (code : n = (((a.toNat - 0xF0) * 64 + (b.toNat - 0x80)) * 64 + (c.toNat - 0x80)) * 64 +
        (d.toNat - 0x80)) :
      Spelled [a, b, c, d] n

private theorem toNat_toUInt8 (n : Nat) (h : n < 256) : n.toUInt8.toNat = n :=
  UInt8.toNat_ofNat_of_lt' h

private theorem toUInt8_eq (n : Nat) (b : UInt8) (h : n = b.toNat) : n.toUInt8 = b := by
  subst h
  exact UInt8.ofNat_toNat

theorem encodeChar_spelled (c : Char) : Spelled (encodeChar c) c.toNat := by
  have hvalid : c.toNat < 0xD800 ∨ 0xDFFF < c.toNat ∧ c.toNat < 0x110000 := c.valid
  unfold encodeChar
  generalize c.toNat = n at hvalid ⊢
  by_cases hone : n < 0x80
  · have ha := toNat_toUInt8 n (by omega)
    rw [if_pos hone]
    exact .one _ n (by omega) (by omega)
  by_cases htwo : n < 0x800
  · have ha := toNat_toUInt8 (0xC0 + n / 64) (by omega)
    have hb := toNat_toUInt8 (0x80 + n % 64) (by omega)
    rw [if_neg hone, if_pos htwo]
    apply Spelled.two <;> simp only [IsTail, ha, hb] <;> omega
  by_cases hthree : n < 0x10000
  · have ha := toNat_toUInt8 (0xE0 + n / 4096) (by omega)
    have hb := toNat_toUInt8 (0x80 + n / 64 % 64) (by omega)
    have hc := toNat_toUInt8 (0x80 + n % 64) (by omega)
    rw [if_neg hone, if_neg htwo, if_pos hthree]
    apply Spelled.three <;> simp only [IsTail, ha, hb, hc] <;> omega
  · have ha := toNat_toUInt8 (0xF0 + n / 262144) (by omega)
    have hb := toNat_toUInt8 (0x80 + n / 4096 % 64) (by omega)
    have hc := toNat_toUInt8 (0x80 + n / 64 % 64) (by omega)
    have hd := toNat_toUInt8 (0x80 + n % 64) (by omega)
    rw [if_neg hone, if_neg htwo, if_neg hthree]
    apply Spelled.four <;> simp only [IsTail, ha, hb, hc, hd] <;> omega

theorem Spelled.isValidChar {bytes : Bytes} {n : Nat} (h : Spelled bytes n) : n.isValidChar := by
  show n < 0xD800 ∨ 0xDFFF < n ∧ n < 0x110000
  cases h with
  | one a n ha code => omega
  | two a b n low high hb code =>
    simp only [IsTail] at hb
    omega
  | three a b c n low high hb hc long surrogate code =>
    simp only [IsTail] at hb hc
    omega
  | four a b c d n low high hb hc hd long last code =>
    simp only [IsTail] at hb hc hd
    omega

theorem Spelled.toNat_ofNat {bytes : Bytes} {n : Nat} (h : Spelled bytes n) :
    (Char.ofNat n).toNat = n := by
  rw [Char.ofNat, dif_pos h.isValidChar]
  rfl

/-- The spelling of a code is the encoding of its character. -/
theorem Spelled.encodeChar_eq {bytes : Bytes} {n : Nat} (h : Spelled bytes n) :
    encodeChar (Char.ofNat n) = bytes := by
  have hn := h.toNat_ofNat
  unfold encodeChar
  rw [hn]
  dsimp only
  cases h with
  | one a n ha code =>
    rw [if_pos (by omega)]
    rw [toUInt8_eq n a code]
  | two a b n low high hb code =>
    simp only [IsTail] at hb code
    rw [if_neg (by omega), if_pos (by omega)]
    simp only [List.cons.injEq, and_true]
    refine ⟨?_, ?_⟩ <;> apply toUInt8_eq <;> omega
  | three a b c n low high hb hc long surrogate code =>
    simp only [IsTail] at hb hc code
    rw [if_neg (by omega), if_neg (by omega), if_pos (by omega)]
    simp only [List.cons.injEq, and_true]
    refine ⟨?_, ?_, ?_⟩ <;> apply toUInt8_eq <;> omega
  | four a b c d n low high hb hc hd long last code =>
    simp only [IsTail] at hb hc hd code
    rw [if_neg (by omega), if_neg (by omega), if_neg (by omega)]
    simp only [List.cons.injEq, and_true]
    refine ⟨?_, ?_, ?_, ?_⟩ <;> apply toUInt8_eq <;> omega

/-! ### The decoder -/

/-- The pieces of the bytes to come. -/
def piecesFrom : State → Bytes → List Piece
  | .ground, [] => []
  | .inside .., [] => [none]
  | state, b :: rest => (step state b).1 ++ piecesFrom (step state b).2 rest

theorem finish_foldl_push (d : Decoder) (bytes : Bytes) :
    (bytes.foldl Decoder.push d).finish = d.done.reverse ++ piecesFrom d.state bytes := by
  induction bytes generalizing d with
  | nil =>
    obtain ⟨state, done⟩ := d
    cases state <;> simp [Decoder.finish, piecesFrom]
  | cons b bytes ih =>
    rw [List.foldl_cons, ih, piecesFrom]
    simp [Decoder.push]

theorem pieces_eq_piecesFrom (bytes : Bytes) : pieces bytes = piecesFrom .ground bytes :=
  finish_foldl_push .start bytes

theorem lead_one (b : UInt8) (h : b.toNat < 0x80) :
    lead b = ([some (Char.ofNat b.toNat)], .ground) := by
  simp only [lead, UInt8.lt_iff_toNat_lt, UInt8.reduceToNat]
  rw [if_pos h]

theorem lead_two (b : UInt8) (low : 0xC2 ≤ b.toNat) (high : b.toNat < 0xE0) :
    lead b = ([], .inside 1 0x80 0xBF (b.toNat - 0xC0)) := by
  simp only [lead, UInt8.lt_iff_toNat_lt, UInt8.reduceToNat]
  rw [if_neg (by omega), if_neg (by omega), if_pos high]

theorem lead_three (b : UInt8) (low : 0xE0 ≤ b.toNat) (high : b.toNat < 0xF0) :
    lead b = ([], .inside 2 (if b = 0xE0 then 0xA0 else 0x80) (if b = 0xED then 0x9F else 0xBF)
      (b.toNat - 0xE0)) := by
  simp only [lead, UInt8.lt_iff_toNat_lt, UInt8.reduceToNat]
  rw [if_neg (by omega), if_neg (by omega), if_neg (by omega), if_pos high]

theorem lead_four (b : UInt8) (low : 0xF0 ≤ b.toNat) (high : b.toNat < 0xF5) :
    lead b = ([], .inside 3 (if b = 0xF0 then 0x90 else 0x80) (if b = 0xF4 then 0x8F else 0xBF)
      (b.toNat - 0xF0)) := by
  simp only [lead, UInt8.lt_iff_toNat_lt, UInt8.reduceToNat]
  rw [if_neg (by omega), if_neg (by omega), if_neg (by omega), if_neg (by omega), if_pos high]

theorem lead_bad (b : UInt8) (h : 0x80 ≤ b.toNat ∧ b.toNat < 0xC2 ∨ 0xF5 ≤ b.toNat) :
    lead b = ([none], .ground) := by
  simp only [lead, UInt8.lt_iff_toNat_lt, UInt8.reduceToNat]
  rw [if_neg (by omega)]
  by_cases hlow : b.toNat < 0xC2
  · rw [if_pos hlow]
  · rw [if_neg hlow, if_neg (by omega), if_neg (by omega), if_neg (by omega)]

theorem piecesFrom_cons (state : State) (b : UInt8) (rest : Bytes) :
    piecesFrom state (b :: rest) = (step state b).1 ++ piecesFrom (step state b).2 rest := by
  cases state <;> rfl

private theorem atLeast_iff (a b special low : UInt8) (hlow : 0x80 ≤ low.toNat) :
    (if a = special then low else 0x80) ≤ b ↔
      0x80 ≤ b.toNat ∧ (a.toNat = special.toNat → low.toNat ≤ b.toNat) := by
  rw [UInt8.toNat_inj, UInt8.le_iff_toNat_le]
  by_cases h : a = special
  · simp only [h, if_true, true_implies]
    omega
  · simp only [h, if_false, UInt8.reduceToNat, false_implies, and_true]

private theorem atMost_iff (a b special high : UInt8) (hhigh : high.toNat ≤ 0xBF) :
    b ≤ (if a = special then high else 0xBF) ↔
      b.toNat ≤ 0xBF ∧ (a.toNat = special.toNat → b.toNat ≤ high.toNat) := by
  rw [UInt8.toNat_inj, UInt8.le_iff_toNat_le]
  by_cases h : a = special
  · simp only [h, if_true, true_implies]
    omega
  · simp only [h, if_false, UInt8.reduceToNat, false_implies, and_true]

theorem within_iff (a b first last low high : UInt8) (hlow : 0x80 ≤ low.toNat)
    (hhigh : high.toNat ≤ 0xBF) :
    (if a = first then low else 0x80) ≤ b ∧ b ≤ (if a = last then high else 0xBF) ↔
      IsTail b ∧ (a.toNat = first.toNat → low.toNat ≤ b.toNat) ∧
        (a.toNat = last.toNat → b.toNat ≤ high.toNat) := by
  rw [atLeast_iff a b first low hlow, atMost_iff a b last high hhigh, IsTail]
  constructor
  · rintro ⟨⟨hlow, hfirst⟩, hhigh, hlast⟩
    exact ⟨⟨hlow, hhigh⟩, hfirst, hlast⟩
  · rintro ⟨⟨hlow, hhigh⟩, hfirst, hlast⟩
    exact ⟨⟨hlow, hfirst⟩, hhigh, hlast⟩

variable {low high b : UInt8} {code : Nat}

theorem step_last (h : low ≤ b ∧ b ≤ high) :
    step (.inside 1 low high code) b =
      ([some (Char.ofNat (code * 64 + (b.toNat - 0x80)))], .ground) := by
  rw [step, if_pos h]
  rfl

theorem step_more (more : Nat) (h : low ≤ b ∧ b ≤ high) :
    step (.inside (more + 2) low high code) b =
      ([], .inside (more + 1) 0x80 0xBF (code * 64 + (b.toNat - 0x80))) := by
  rw [step, if_pos h]
  rfl

theorem isTail_iff (b : UInt8) : 0x80 ≤ b ∧ b ≤ 0xBF ↔ IsTail b := by
  simp only [IsTail, UInt8.le_iff_toNat_le, UInt8.reduceToNat]

theorem piecesFrom_spelled {bytes : Bytes} {n : Nat} (h : Spelled bytes n) (rest : Bytes) :
    piecesFrom .ground (bytes ++ rest) = some (Char.ofNat n) :: piecesFrom .ground rest := by
  have hground (b : UInt8) : step .ground b = lead b := rfl
  cases h with
  | one a n ha code =>
    simp only [List.cons_append, List.nil_append, piecesFrom_cons, hground, lead_one a ha, code]
  | two a b n low high hb code =>
    simp only [List.cons_append, List.nil_append, piecesFrom_cons, hground, lead_two a low high,
      step_last ((isTail_iff b).mpr hb), code]
  | three a b c n low high hb hc long surrogate code =>
    have hbounds := (within_iff a b 0xE0 0xED 0xA0 0x9F (by decide) (by decide)).mpr
      ⟨hb, long, surrogate⟩
    simp only [List.cons_append, List.nil_append, piecesFrom_cons, hground, lead_three a low high,
      step_more 0 hbounds, step_last ((isTail_iff c).mpr hc), code]
  | four a b c d n low high hb hc hd long last code =>
    have hbounds := (within_iff a b 0xF0 0xF4 0x90 0x8F (by decide) (by decide)).mpr
      ⟨hb, long, last⟩
    simp only [List.cons_append, List.nil_append, piecesFrom_cons, hground, lead_four a low high,
      step_more 1 hbounds, step_more 0 ((isTail_iff c).mpr hc), step_last ((isTail_iff d).mpr hd),
      code]

theorem piecesFrom_encode (text : Text) (rest : Bytes) :
    piecesFrom .ground (encode text ++ rest) =
      text.map some ++ piecesFrom .ground rest := by
  induction text with
  | nil => rfl
  | cons c text ih =>
    rw [encode_cons, List.append_assoc, piecesFrom_spelled (encodeChar_spelled c), ih,
      Char.ofNat_toNat]
    rfl

theorem piecesFrom_inside {more : Nat} {bytes : Bytes} {text : Text}
    (h : piecesFrom (.inside more low high code) bytes = text.map some) :
    ∃ b rest, bytes = b :: rest ∧ low ≤ b ∧ b ≤ high := by
  cases bytes with
  | nil => cases text <;> cases h
  | cons b rest =>
    refine ⟨b, rest, rfl, ?_⟩
    by_cases hb : low ≤ b ∧ b ≤ high
    · exact hb
    · rw [piecesFrom_cons, step, if_neg hb] at h
      cases text <;> cases h

theorem spelled_of_piecesFrom {bytes : Bytes} {c : Char} {text : Text}
    (h : piecesFrom .ground bytes = (c :: text).map some) :
    ∃ front rest, bytes = front ++ rest ∧ Spelled front c.toNat ∧
      piecesFrom .ground rest = text.map some := by
  -- a spelling in front is taken for its own character, so that only its ranges are to be shown
  have hspelled (front rest : Bytes) (n : Nat) (hf : Spelled front n) (hb : bytes = front ++ rest) :
      ∃ front rest, bytes = front ++ rest ∧ Spelled front c.toNat ∧
        piecesFrom .ground rest = text.map some := by
    rw [hb, piecesFrom_spelled hf, List.map_cons] at h
    obtain ⟨hc, hrest⟩ := List.cons.inj h
    refine ⟨front, rest, hb, ?_, hrest⟩
    rwa [← Option.some.inj hc, hf.toNat_ofNat]
  cases bytes with
  | nil => cases h
  | cons a bytes =>
    rw [piecesFrom_cons, show step .ground a = lead a from rfl] at h
    by_cases hone : a.toNat < 0x80
    · exact hspelled [a] bytes _ (.one a _ hone rfl) rfl
    by_cases htwo : 0xC2 ≤ a.toNat ∧ a.toNat < 0xE0
    · rw [lead_two a htwo.1 htwo.2] at h
      obtain ⟨b, rest, rfl, hb⟩ := piecesFrom_inside h
      exact hspelled [a, b] rest _ (.two a b _ htwo.1 htwo.2 ((isTail_iff b).mp hb) rfl) rfl
    by_cases hthree : 0xE0 ≤ a.toNat ∧ a.toNat < 0xF0
    · rw [lead_three a hthree.1 hthree.2] at h
      obtain ⟨b, more, rfl, hb⟩ := piecesFrom_inside h
      rw [piecesFrom_cons, step_more 0 hb] at h
      obtain ⟨c, rest, rfl, hc⟩ := piecesFrom_inside h
      obtain ⟨htail, hlong, hsurrogate⟩ :=
        (within_iff a b 0xE0 0xED 0xA0 0x9F (by decide) (by decide)).mp hb
      exact hspelled [a, b, c] rest _ (.three a b c _ hthree.1 hthree.2 htail ((isTail_iff c).mp hc)
        hlong hsurrogate rfl) rfl
    by_cases hfour : 0xF0 ≤ a.toNat ∧ a.toNat < 0xF5
    · rw [lead_four a hfour.1 hfour.2] at h
      obtain ⟨b, more, rfl, hb⟩ := piecesFrom_inside h
      rw [piecesFrom_cons, step_more 1 hb] at h
      obtain ⟨c, more, rfl, hc⟩ := piecesFrom_inside h
      rw [piecesFrom_cons, step_more 0 hc] at h
      obtain ⟨d, rest, rfl, hd⟩ := piecesFrom_inside h
      obtain ⟨htail, hlong, hlast⟩ :=
        (within_iff a b 0xF0 0xF4 0x90 0x8F (by decide) (by decide)).mp hb
      exact hspelled [a, b, c, d] rest _ (.four a b c d _ hfour.1 hfour.2 htail
        ((isTail_iff c).mp hc) ((isTail_iff d).mp hd) hlong hlast rfl) rfl
    · rw [lead_bad a (by omega)] at h
      cases h

theorem lead_ne (b : UInt8) : lead b ≠ ([], .ground) := by
  unfold lead
  intro h
  iterate 5
    split at h
    · cases h
  cases h

theorem step_ne (state : State) (b : UInt8) : step state b ≠ ([], .ground) := by
  cases state with
  | ground => exact lead_ne b
  | inside more low high code =>
    intro h
    rw [step] at h
    split at h
    · dsimp only at h
      split at h <;> cases h
    · cases h

theorem eq_nil_of_piecesFrom (state : State) (bytes : Bytes) (h : piecesFrom state bytes = []) :
    state = .ground ∧ bytes = [] := by
  induction bytes generalizing state with
  | nil =>
    cases state with
    | ground => exact ⟨rfl, rfl⟩
    | inside more low high code => cases h
  | cons b bytes ih =>
    rw [piecesFrom_cons, List.append_eq_nil_iff] at h
    exact absurd (Prod.ext h.1 (ih _ h.2).1) (step_ne state b)

theorem eq_encode_of_piecesFrom (text : Text) (bytes : Bytes)
    (h : piecesFrom .ground bytes = text.map some) : bytes = encode text := by
  induction text generalizing bytes with
  | nil =>
    rw [(eq_nil_of_piecesFrom .ground bytes h).2, encode_nil]
  | cons c text ih =>
    obtain ⟨front, rest, rfl, hf, hrest⟩ := spelled_of_piecesFrom h
    have hfront := hf.encodeChar_eq
    rw [Char.ofNat_toNat] at hfront
    rw [encode_cons, hfront, ← ih rest hrest]

theorem mapM_id_eq_some_iff (pieces : List Piece) (text : Text) :
    pieces.mapM id = some text ↔ pieces = text.map some := by
  induction pieces generalizing text with
  | nil => cases text <;> simp
  | cons piece pieces ih =>
    rw [List.mapM_cons]
    constructor
    · intro h
      obtain ⟨c, hc, h⟩ := Option.bind_eq_some_iff.mp h
      obtain ⟨rest, hrest, h⟩ := Option.bind_eq_some_iff.mp h
      cases h
      rw [(ih rest).mp hrest, List.map_cons, ← hc, id]
    · intro h
      cases text with
      | nil => cases h
      | cons c text =>
        obtain ⟨rfl, hrest⟩ := List.cons.inj h
        simp [(ih text).mpr hrest]

/-- Bytes are decoded exactly if they are the encoding of what they are decoded as. -/
theorem decode?_eq_some_iff (bytes : Bytes) (text : Text) :
    decode? bytes = some text ↔ bytes = encode text := by
  rw [decode?, pieces_eq_piecesFrom, mapM_id_eq_some_iff]
  constructor
  · exact eq_encode_of_piecesFrom text bytes
  · rintro rfl
    have hall := piecesFrom_encode text []
    rwa [List.append_nil, piecesFrom, List.append_nil] at hall

theorem decode?_encode (text : Text) : decode? (encode text) = some text :=
  (decode?_eq_some_iff _ text).mpr rfl

theorem encode_injective {a b : Text} (h : encode a = encode b) : a = b := by
  have hdecode := decode?_encode a
  rw [h, decode?_encode] at hdecode
  exact (Option.some.inj hdecode).symm

end NoiseGate.Utf8

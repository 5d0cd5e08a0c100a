import NoiseGate.Frame.Header

/-!
# Spelled headers

A header is spelled by its digits. `digits?` finds the digits of exactly those buffers that begin
with a spelled header, and `isStub` holds of exactly the buffers that stop inside one. No header
can begin inside another, since the first byte of the token stands nowhere else in a header.
-/

namespace NoiseGate.Header

/-- The header that gives its length by these digits. -/
def spell (digits : Bytes) : Bytes := token ++ digits ++ separator

/-- Digits that announce a payload: some digits and nothing else, for a frame that can be
counted. -/
structure Announces (digits : Bytes) : Prop where
  ne_nil : digits ≠ []
  isDigit : ∀ d ∈ digits, isDigit d = true
  countable : sizeOf digits.length + digitsValue digits ≤ wordMax

@[simp] theorem spell_length (digits : Bytes) : (spell digits).length = sizeOf digits.length := by
  simp only [spell, sizeOf, List.length_append]

def mark : UInt8 := 67

private theorem token_eq_cons : token = mark :: token.tail := by decide

private theorem token_ne_nil : token ≠ [] := by decide

private theorem mark_notMem_token_tail : mark ∉ token.tail := by decide

private theorem mark_notMem_separator : mark ∉ separator := by decide

theorem spell_eq_cons (digits : Bytes) : spell digits = mark :: (spell digits).tail := by
  rw [spell, token_eq_cons]
  rfl

theorem spell_ne_nil (digits : Bytes) : spell digits ≠ [] := by
  rw [spell_eq_cons]
  exact List.cons_ne_nil _ _

theorem mark_notMem_spell_tail (digits : Bytes) (hd : ∀ d ∈ digits, isDigit d = true) :
    mark ∉ (spell digits).tail := by
  have htail : (spell digits).tail = token.tail ++ (digits ++ separator) := by
    rw [spell, token_eq_cons]
    rfl
  have hdigits : mark ∉ digits := by
    intro h
    have := hd mark h
    contradiction
  rw [htail]
  simp only [List.mem_append, not_or]
  exact ⟨mark_notMem_token_tail, hdigits, mark_notMem_separator⟩

theorem spell_overlap (digits before after : Bytes) (hd : ∀ d ∈ digits, isDigit d = true)
    (hs : spell digits = before ++ after) (hb : before ≠ []) : mark ∉ after := by
  cases before with
  | nil => contradiction
  | cons b before =>
    have htail : (spell digits).tail = before ++ after := by rw [hs]; rfl
    intro hm
    apply mark_notMem_spell_tail digits hd
    rw [htail]
    exact List.mem_append_right _ hm

theorem takeWhile_digits (digits rest : Bytes) (hd : ∀ d ∈ digits, isDigit d = true) :
    (digits ++ (separator ++ rest)).takeWhile isDigit = digits := by
  rw [List.takeWhile_append_of_pos hd]
  change digits ++ List.takeWhile isDigit (13 :: ([10, 13, 10] ++ rest)) = digits
  rw [List.takeWhile_cons_of_neg (by decide), List.append_nil]

theorem takeWhile_isDigit (tail : Bytes) :
    ∀ d ∈ tail.takeWhile isDigit, isDigit d = true :=
  List.all_eq_true.mp List.all_takeWhile

theorem digits?_spell (digits rest : Bytes) (ha : Announces digits) :
    digits? (spell digits ++ rest) = some digits := by
  have htoken : token.isPrefixOf (spell digits ++ rest) = true := by
    simp [spell, List.append_assoc]
  have hdrop : (spell digits ++ rest).drop token.length = digits ++ (separator ++ rest) := by
    simp only [spell, List.append_assoc, List.drop_left]
  have hempty : digits.isEmpty = false := by simpa using ha.ne_nil
  have hsep : separator.isPrefixOf (separator ++ rest) = true := by simp
  simp only [digits?, htoken, if_true, hdrop, takeWhile_digits digits rest ha.isDigit,
    List.drop_left, hempty, hsep, ha.countable, Bool.not_false, Bool.and_self, decide_true]

private theorem announces_of_digits? (buffer digits : Bytes) (h : digits? buffer = some digits) :
    Announces digits ∧ spell digits <+: buffer := by
  unfold digits? at h
  split at h
  · rename_i htoken
    obtain ⟨tail, rfl⟩ := List.isPrefixOf_iff_prefix.mp htoken
    simp only [List.drop_left] at h
    split at h
    · rename_i hc
      simp only [Option.some.injEq] at h
      simp only [Bool.and_eq_true, Bool.not_eq_true', decide_eq_true_eq,
        List.isPrefixOf_iff_prefix] at hc
      obtain ⟨⟨hne, hsep⟩, hcount⟩ := hc
      obtain ⟨rest, hrest⟩ := hsep
      have hd := takeWhile_isDigit tail
      have htail : tail = tail.takeWhile isDigit ++ (separator ++ rest) := by
        rw [hrest]
        exact (List.prefix_iff_eq_append.mp (List.takeWhile_prefix _)).symm
      subst h
      refine ⟨⟨?_, hd, hcount⟩, rest, ?_⟩
      · intro hnil
        rw [hnil] at hne
        contradiction
      · rw [spell, List.append_assoc, List.append_assoc, ← htail]
    · contradiction
  · contradiction

theorem digits?_eq_some_iff (buffer digits : Bytes) :
    digits? buffer = some digits ↔ Announces digits ∧ spell digits <+: buffer := by
  constructor
  · exact announces_of_digits? buffer digits
  · rintro ⟨ha, rest, rfl⟩
    exact digits?_spell digits rest ha

theorem digits?_eq_none_of_append (buffer more : Bytes) (h : digits? (buffer ++ more) = none) :
    digits? buffer = none := by
  refine Option.eq_none_iff_forall_ne_some.mpr fun digits hd => ?_
  obtain ⟨ha, hp⟩ := (digits?_eq_some_iff _ _).mp hd
  rw [(digits?_eq_some_iff _ _).mpr ⟨ha, List.prefix_append_of_prefix hp⟩] at h
  contradiction

private theorem dropWhile_digits (digits part : Bytes) (hd : ∀ d ∈ digits, isDigit d = true)
    (hp : part <+: separator) : (digits ++ part).dropWhile isDigit = part := by
  rw [List.dropWhile_append_of_pos hd]
  rcases List.prefix_cons_iff.mp hp with rfl | ⟨more, rfl, _⟩
  · rfl
  · exact List.dropWhile_cons_of_neg (by decide)

private theorem stub_tail_iff (tail : Bytes) :
    (tail.dropWhile isDigit <+: separator ∧ tail.dropWhile isDigit ≠ separator) ↔
      ∃ digits, (∀ d ∈ digits, isDigit d = true) ∧ tail <+: digits ++ separator ∧
        tail ≠ digits ++ separator := by
  constructor
  · rintro ⟨hp, hne⟩
    have hd : ∀ d ∈ tail.takeWhile isDigit, isDigit d = true := takeWhile_isDigit tail
    have hsplit : tail = tail.takeWhile isDigit ++ tail.dropWhile isDigit :=
      List.takeWhile_append_dropWhile.symm
    refine ⟨tail.takeWhile isDigit, hd, ?_, ?_⟩
    · obtain ⟨more, hmore⟩ := hp
      exact ⟨more, by rw [← hmore, ← List.append_assoc, ← hsplit]⟩
    · intro h
      exact hne (List.append_cancel_left (hsplit.symm.trans h))
  · rintro ⟨digits, hd, hp, hne⟩
    rcases List.prefix_or_prefix_of_prefix hp (List.prefix_append digits separator) with h | h
    · have hall : ∀ d ∈ tail, isDigit d = true := fun d hm => hd d (h.subset hm)
      have hnil := dropWhile_digits tail [] hall List.nil_prefix
      rw [List.append_nil] at hnil
      rw [hnil]
      exact ⟨List.nil_prefix, by decide⟩
    · obtain ⟨part, rfl⟩ := h
      have hpart := (List.prefix_append_right_inj digits).mp hp
      rw [dropWhile_digits digits part hd hpart]
      exact ⟨hpart, fun h => hne (by rw [h])⟩

/-- A stub is a proper part, from the front, of a header whose digits may be missing. -/
theorem isStub_iff (buffer : Bytes) :
    isStub buffer = true ↔ buffer ≠ [] ∧ ∃ digits, (∀ d ∈ digits, isDigit d = true) ∧
      buffer <+: spell digits ∧ buffer ≠ spell digits := by
  unfold isStub
  split
  · rename_i htoken
    obtain ⟨tail, rfl⟩ := List.isPrefixOf_iff_prefix.mp htoken
    simp only [List.drop_left, Bool.and_eq_true, List.isPrefixOf_iff_prefix, bne_iff_ne, ne_eq,
      spell, List.append_assoc, List.prefix_append_right_inj, List.append_cancel_left_eq]
    rw [← ne_eq, stub_tail_iff tail]
    simp [token_ne_nil]
  · rename_i htoken
    simp only [Bool.and_eq_true, Bool.not_eq_true', List.isEmpty_eq_false_iff,
      List.isPrefixOf_iff_prefix] at htoken ⊢
    refine and_congr_right fun _ => ?_
    constructor
    · intro hp
      refine ⟨[], by simp, hp.trans (List.prefix_append _ _), ?_⟩
      intro h
      apply htoken
      rw [h]
      exact List.prefix_append _ _
    · rintro ⟨digits, _, hp, _⟩
      have ht : token <+: spell digits := by
        rw [spell, List.append_assoc]
        exact List.prefix_append _ _
      exact (List.prefix_or_prefix_of_prefix hp ht).resolve_right htoken

theorem isStub_of_append (buffer more : Bytes) (hb : buffer ≠ [])
    (h : isStub (buffer ++ more) = true) : isStub buffer = true := by
  obtain ⟨_, digits, hd, hp, hne⟩ := (isStub_iff _).mp h
  have hb' : buffer <+: spell digits := (List.prefix_append buffer more).trans hp
  refine (isStub_iff _).mpr ⟨hb, digits, hd, hb', ?_⟩
  rintro rfl
  exact hne (List.IsPrefix.eq_of_length_le hp (by simp))

/-- A header that only more bytes bring to the front of a buffer straddles their seam. -/
theorem straddle_of_digits? (buffer more digits : Bytes) (hn : digits? buffer = none)
    (h : digits? (buffer ++ more) = some digits) :
    Announces digits ∧ ∃ after, after ≠ [] ∧ spell digits = buffer ++ after ∧ after <+: more := by
  obtain ⟨ha, hp⟩ := (digits?_eq_some_iff _ _).mp h
  have whole : ¬ spell digits <+: buffer := by
    intro hp
    rw [(digits?_eq_some_iff _ _).mpr ⟨ha, hp⟩] at hn
    contradiction
  rcases List.prefix_or_prefix_of_prefix hp (List.prefix_append buffer more) with hp' | hp'
  · exact absurd hp' whole
  · obtain ⟨after, hs⟩ := hp'
    refine ⟨ha, after, ?_, hs.symm, ?_⟩
    · rintro rfl
      rw [List.append_nil] at hs
      exact whole (hs ▸ List.prefix_refl _)
    · rw [← hs] at hp
      exact (List.prefix_append_right_inj buffer).mp hp

theorem digits?_append_of_dead (buffer more : Bytes) (hb : buffer ≠ [])
    (hn : digits? buffer = none) (hs : isStub buffer = false) :
    digits? (buffer ++ more) = none := by
  refine Option.eq_none_iff_forall_ne_some.mpr fun digits h => ?_
  obtain ⟨ha, after, hafter, hspell, _⟩ := straddle_of_digits? buffer more digits hn h
  have hstub : isStub buffer = true := by
    refine (isStub_iff _).mpr ⟨hb, digits, ha.isDigit, ⟨after, hspell.symm⟩, ?_⟩
    intro he
    rw [← he] at hspell
    exact hafter (List.self_eq_append_right.mp hspell)
  rw [hstub] at hs
  contradiction

theorem digits?_append_spell (buffer digits rest : Bytes) (hb : buffer ≠ [])
    (hn : digits? buffer = none) : digits? (buffer ++ (spell digits ++ rest)) = none := by
  refine Option.eq_none_iff_forall_ne_some.mpr fun found h => ?_
  obtain ⟨ha, after, hafter, hspell, hp⟩ := straddle_of_digits? buffer _ found hn h
  apply spell_overlap found buffer after ha.isDigit hspell hb
  rw [spell_eq_cons, List.cons_append] at hp
  rcases List.prefix_cons_iff.mp hp with rfl | ⟨more, rfl, _⟩
  · contradiction
  · exact List.mem_cons_self

end NoiseGate.Header

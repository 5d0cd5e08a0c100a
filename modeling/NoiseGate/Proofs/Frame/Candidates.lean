import NoiseGate.Frame.Candidates
import NoiseGate.Proofs.Frame.Leftmost
import NoiseGate.Proofs.Frame.Trimming

/-!
# No candidate is missed

Tokens do not overlap, so nothing stands at the places that a search by candidates passes over. The
next separator is the right one, since it ends the first run of digits, and a check at every step
of the digits fails exactly if their value is too large. So the search by candidates is the leftmost
search, for headers as well as for stubs.
-/

namespace NoiseGate.Header

variable {α : Type}

def wordAt? (word buffer : Bytes) (place : Nat) : Option Nat :=
  if word.isPrefixOf (buffer.drop place) then some place else none

theorem isFirst_place? (word buffer : Bytes) (hw : word ≠ []) :
    IsFirst (wordAt? word buffer) (place? word buffer) := by
  have hnil : word.isPrefixOf [] = false := by
    cases word with
    | nil => contradiction
    | cons w word => rfl
  induction buffer with
  | nil =>
    intro place
    simp [wordAt?, hnil]
  | cons b rest ih =>
    rw [place?]
    by_cases hp : word.isPrefixOf (b :: rest) = true
    · rw [if_pos hp]
      exact IsFirst.of_here (by simp [wordAt?, hp])
    · rw [if_neg hp]
      refine IsFirst.of_skip 1 ?_ ?_
      · intro place hlt
        obtain rfl : place = 0 := by omega
        simp [wordAt?, hp]
      · have hnext : (fun place => wordAt? word (b :: rest) (1 + place)) =
            fun place => (wordAt? word rest place).map (· + 1) := by
          funext place
          rw [Nat.add_comm]
          by_cases hr : word.isPrefixOf (rest.drop place) = true
          · simp [wordAt?, hr]
          · simp [wordAt?, hr]
        rw [hnext]
        exact ih.map (· + 1)

private theorem wordAt?_eq_some {word buffer : Bytes} {place found : Nat}
    (h : wordAt? word buffer place = some found) : place = found ∧ word <+: buffer.drop place := by
  unfold wordAt? at h
  split at h
  · rename_i hp
    exact ⟨Option.some.inj h, List.isPrefixOf_iff_prefix.mp hp⟩
  · contradiction

private theorem wordAt?_eq_none {word buffer : Bytes} {place : Nat}
    (h : wordAt? word buffer place = none) : word.isPrefixOf (buffer.drop place) = false := by
  unfold wordAt? at h
  split at h
  · contradiction
  · rename_i hp
    exact Bool.eq_false_iff.mpr hp

theorem prefix_of_place? {word buffer : Bytes} {place : Nat} (hw : word ≠ [])
    (h : place? word buffer = some place) : word <+: buffer.drop place := by
  have hfirst := isFirst_place? word buffer hw
  rw [h] at hfirst
  obtain ⟨found, hat, _⟩ := hfirst
  obtain ⟨rfl, hp⟩ := wordAt?_eq_some hat
  exact hp

theorem place?_add_length_le {word buffer : Bytes} {place : Nat} (hw : word ≠ [])
    (h : place? word buffer = some place) : place + word.length ≤ buffer.length := by
  have hle := (prefix_of_place? hw h).length_le
  have hpos : 0 < word.length := List.length_pos_iff.mpr hw
  rw [List.length_drop] at hle
  omega

/-- A token does not reach into the next one. -/
theorem token_overlap (buffer : Bytes) (place step : Nat) (hp : token <+: buffer.drop place)
    (hpos : 0 < step) (hlt : step < token.length) : ¬ token <+: buffer.drop (place + step) := by
  intro hnext
  have hfirst : ∀ i < token.length, 0 < i → token[i]? ≠ token[0]? := by decide
  apply hfirst step hlt hpos
  have hstep := List.prefix_iff_getElem?.mp hp step hlt
  have hzero := List.prefix_iff_getElem?.mp hnext 0 (by decide)
  rw [List.getElem?_drop] at hstep hzero
  rw [List.getElem?_eq_getElem hlt, ← hstep, ← Nat.add_zero (place + step), hzero]
  rfl

/-- What a test gives at a place where a token stands, and nothing elsewhere. -/
def tested? (test? : Nat → Bytes → Option α) (pos : Nat) (buffer : Bytes) (place : Nat) : Option α :=
  if token.isPrefixOf (buffer.drop place) then
    test? (pos + place) (buffer.drop (place + token.length))
  else none

/-- The first candidate is the first of all places that pass the test: the search skips only places
where no token stands. -/
theorem isFirst_firstCandidate? (test? : Nat → Bytes → Option α) (pos : Nat) (buffer : Bytes) :
    IsFirst (tested? test? pos buffer) (firstCandidate? test? pos buffer) := by
  have htoken : token ≠ [] := by decide
  fun_induction firstCandidate? test? pos buffer with
  | case1 pos buffer hnone =>
    have hfirst := isFirst_place? token buffer htoken
    rw [hnone] at hfirst
    intro place
    simp [tested?, wordAt?_eq_none (hfirst place)]
  | case2 pos buffer skipped hplace next a ha =>
    have hfirst := isFirst_place? token buffer htoken
    rw [hplace] at hfirst
    obtain ⟨place, hat, hearlier⟩ := hfirst
    obtain ⟨rfl, hp⟩ := wordAt?_eq_some hat
    refine ⟨place, ?_, ?_⟩
    · simp [tested?, List.isPrefixOf_iff_prefix.mpr hp, ← ha, next]
    · intro earlier hlt
      simp [tested?, wordAt?_eq_none (hearlier earlier hlt)]
  | case3 pos buffer skipped hplace next hfail ih =>
    have hfirst := isFirst_place? token buffer htoken
    rw [hplace] at hfirst
    obtain ⟨place, hat, hearlier⟩ := hfirst
    obtain ⟨rfl, hp⟩ := wordAt?_eq_some hat
    refine IsFirst.of_skip next ?_ ?_
    · intro passed hpassed
      rcases Nat.lt_trichotomy passed place with hlt | rfl | hlt
      · simp [tested?, wordAt?_eq_none (hearlier passed hlt)]
      · simp [tested?, List.isPrefixOf_iff_prefix.mpr hp, hfail, next]
      · have hover := token_overlap buffer place (passed - place) hp (by omega) (by omega)
        rw [Nat.add_sub_cancel' (Nat.le_of_lt hlt), ← List.isPrefixOf_iff_prefix] at hover
        simp [tested?, hover]
    · have hshift : (fun later => tested? test? pos buffer (next + later)) =
          tested? test? (pos + next) (buffer.drop next) := by
        funext later
        simp only [tested?, List.drop_drop, Nat.add_assoc]
      rw [hshift]
      exact ih

theorem firstCandidate?_map {β : Type} (f : α → β) (test? : Nat → Bytes → Option α) (pos : Nat)
    (buffer : Bytes) :
    firstCandidate? (fun pos tail => (test? pos tail).map f) pos buffer =
      (firstCandidate? test? pos buffer).map f := by
  have hmap := (isFirst_firstCandidate? test? pos buffer).map f
  have hsame : (fun place => (tested? test? pos buffer place).map f) =
      tested? (fun pos tail => (test? pos tail).map f) pos buffer := by
    funext place
    unfold tested?
    split <;> rfl
  rw [hsame] at hmap
  exact (isFirst_firstCandidate? _ pos buffer).unique hmap

/-- To check a value at every digit is to check it once: on the way it never shrinks. -/
theorem foldlM_pushDigit? (digits : Bytes) (n : Nat) (hn : n ≤ wordMax) :
    digits.foldlM pushDigit? n = counted? (digits.foldl (fun n d => 10 * n + digitValue d) n) := by
  induction digits generalizing n with
  | nil => simp [counted?, hn]
  | cons d digits ih =>
    have hle := le_foldl_digits digits (10 * n + digitValue d)
    rw [List.foldlM_cons, List.foldl_cons]
    by_cases hd : 10 * n + digitValue d ≤ wordMax
    · have hpush : pushDigit? n d = some (10 * n + digitValue d) := by
        have htens : 10 * n ≤ wordMax := Nat.le_trans (Nat.le_add_right _ _) hd
        simp [pushDigit?, counted?, htens, hd]
      rw [hpush]
      exact ih _ hd
    · have hpush : pushDigit? n d = none := by
        unfold pushDigit? counted?
        split
        · exact if_neg hd
        · rfl
      have hlarge : ¬ digits.foldl (fun n d => 10 * n + digitValue d) (10 * n + digitValue d) ≤
          wordMax := by omega
      rw [hpush, counted?, if_neg hlarge]
      rfl

theorem length?_of_digits (digits : Bytes) (hne : digits ≠ [])
    (hd : ∀ d ∈ digits, isDigit d = true) : length? digits = counted? (digitsValue digits) := by
  have hdigits : (digits.isEmpty || !digits.all isDigit) = false := by simpa using ⟨hne, hd⟩
  rw [length?, hdigits]
  exact foldlM_pushDigit? digits 0 (Nat.zero_le _)

private theorem digits_of_length? {bytes : Bytes} {n : Nat} (h : length? bytes = some n) :
    bytes ≠ [] ∧ ∀ d ∈ bytes, isDigit d = true := by
  unfold length? at h
  split at h
  · contradiction
  · rename_i hc
    simpa using hc

private theorem eq_of_counted? {n m : Nat} (h : counted? n = some m) : n = m ∧ n ≤ wordMax := by
  unfold counted? at h
  split at h
  · exact ⟨Option.some.inj h, ‹_›⟩
  · contradiction

theorem place?_separator (digits rest : Bytes) (hd : ∀ d ∈ digits, isDigit d = true) :
    place? separator (digits ++ (separator ++ rest)) = some digits.length := by
  induction digits with
  | nil => simp [place?, separator]
  | cons d digits ih =>
    have hp : separator.isPrefixOf (d :: (digits ++ (separator ++ rest))) = false := by
      apply Bool.eq_false_iff.mpr
      intro h
      obtain ⟨rfl, _⟩ := List.cons_prefix_cons.mp (List.isPrefixOf_iff_prefix.mp h)
      have := hd 13 List.mem_cons_self
      contradiction
    rw [List.cons_append, place?, hp, ih fun c hc => hd c (List.mem_cons_of_mem d hc)]
    rfl

theorem candidate?_eq (pos : Nat) (tail : Bytes) :
    candidate? pos tail = (digits? (token ++ tail)).map (spelledAt pos) := by
  apply Option.ext
  intro h
  simp only [candidate?, Option.bind_eq_some_iff, Option.map_eq_some_iff]
  constructor
  · rintro ⟨place, hplace, payload, hpayload, size, hsize, rfl⟩
    obtain ⟨rest, hrest⟩ := prefix_of_place? (by decide) hplace
    have htail : tail.take place ++ (separator ++ rest) = tail := by
      rw [hrest, List.take_append_drop]
    have hlen : (tail.take place).length = place := by
      apply List.length_take_of_le
      exact Nat.le_trans (Nat.le_add_right _ _) (place?_add_length_le (by decide) hplace)
    obtain ⟨hne, hd⟩ := digits_of_length? hpayload
    rw [length?_of_digits _ hne hd] at hpayload
    obtain ⟨hvalue, _⟩ := eq_of_counted? hpayload
    obtain ⟨_, hcount⟩ := eq_of_counted? hsize
    refine ⟨tail.take place, (digits?_eq_some_iff _ _).mpr ⟨⟨hne, hd, ?_⟩, rest, ?_⟩, ?_⟩
    · rwa [hlen, hvalue]
    · rw [spell, List.append_assoc, List.append_assoc, htail]
    · simp [spelledAt, hlen, hvalue]
  · rintro ⟨digits, hdigits, rfl⟩
    obtain ⟨ha, rest, hrest⟩ := (digits?_eq_some_iff _ _).mp hdigits
    have htail : tail = digits ++ (separator ++ rest) := by
      rw [spell, List.append_assoc, List.append_assoc] at hrest
      exact (List.append_cancel_left hrest).symm
    have hcount := ha.countable
    have hvalue : digitsValue digits ≤ wordMax := by omega
    refine ⟨digits.length, ?_, digitsValue digits, ?_, _, if_pos hcount, rfl⟩
    · rw [htail, place?_separator digits rest ha.isDigit]
    · rw [htail, List.take_left, length?_of_digits digits ha.ne_nil ha.isDigit, counted?,
        if_pos hvalue]

private theorem drop_token {buffer : Bytes} {place : Nat} (hp : token <+: buffer.drop place) :
    token ++ buffer.drop (place + token.length) = buffer.drop place := by
  obtain ⟨tail, htail⟩ := hp
  rw [← List.drop_drop, ← htail, List.drop_left]

theorem tested?_candidate? (buffer : Bytes) : tested? candidate? 0 buffer = standing? buffer := by
  funext place
  unfold tested?
  split
  · rename_i hp
    rw [candidate?_eq, drop_token (List.isPrefixOf_iff_prefix.mp hp), Nat.zero_add]
    rfl
  · rename_i hp
    simp [standing?, digits?, hp]

theorem search_eq_locate (buffer : Bytes) : search buffer = locate buffer := by
  have hsearch := isFirst_firstCandidate? candidate? 0 buffer
  rw [tested?_candidate?] at hsearch
  exact hsearch.unique (isFirst_locate buffer)

/-- A header is found if and only if it stands in the buffer and none stands in front of it. It ends
behind its separator, and its payload is as long as its digits say. None is found if and only if
none stands anywhere. The search by candidates finds the same. -/
theorem locate_finds_leftmost (buffer : Bytes) :
    (∀ h, locate buffer = some h ↔ ∃ digits, StandsAt buffer h.start digits ∧
      (∀ place < h.start, ∀ other, ¬ StandsAt buffer place other) ∧
      h.stop = h.start + (token ++ digits ++ separator).length ∧
      h.payload = Nat.ofDigits 10 (digits.map digitValue).reverse) ∧
    (locate buffer = none ↔ ∀ place digits, ¬ StandsAt buffer place digits) ∧
    search buffer = locate buffer := by
  have hfirst := isFirst_locate buffer
  refine ⟨?_, ?_, search_eq_locate buffer⟩
  · intro h
    constructor
    · intro hl
      rw [hl] at hfirst
      obtain ⟨place, hat, hearlier⟩ := hfirst
      obtain ⟨digits, hs, rfl⟩ := (standing?_eq_some_iff buffer place h).mp hat
      refine ⟨digits, hs, ?_, ?_, digitsValue_eq_ofDigits digits⟩
      · intro earlier hlt
        exact (standing?_eq_none_iff buffer earlier).mp (hearlier earlier hlt)
      · change place + sizeOf digits.length = place + (spell digits).length
        rw [spell_length]
    · rintro ⟨digits, hs, hearlier, hstop, hpayload⟩
      have hspelled : h = spelledAt h.start digits := by
        obtain ⟨start, stop, payload, hlt⟩ := h
        change stop = start + (spell digits).length at hstop
        rw [spell_length] at hstop
        simp only at hpayload
        simp [spelledAt, hstop, hpayload, digitsValue_eq_ofDigits]
      have hfound : IsFirst (standing? buffer) (some h) := by
        refine ⟨h.start, ?_, ?_⟩
        · exact (standing?_eq_some_iff buffer h.start h).mpr ⟨digits, hs, hspelled⟩
        · intro earlier hlt
          exact (standing?_eq_none_iff buffer earlier).mpr (hearlier earlier hlt)
      exact hfirst.unique hfound
  · constructor
    · intro hl place
      rw [hl] at hfirst
      exact (standing?_eq_none_iff buffer place).mp (hfirst place)
    · intro hnone
      have hfound : IsFirst (standing? buffer) none := by
        intro place
        exact (standing?_eq_none_iff buffer place).mpr (hnone place)
      exact hfirst.unique hfound

theorem isStub_token (tail : Bytes) : isStub (token ++ tail) = isLive tail := by
  have hp : token.isPrefixOf (token ++ tail) = true := by simp
  simp only [isStub, hp, if_true, List.drop_left, isLive]
  apply Bool.eq_iff_iff.mpr
  simp only [Bool.and_eq_true, decide_eq_true_eq, bne_iff_ne, List.isPrefixOf_iff_prefix]
  constructor
  · rintro ⟨hpart, hne⟩
    exact ⟨Nat.lt_of_not_le fun hle => hne (hpart.eq_of_length_le hle), hpart⟩
  · rintro ⟨hlt, hpart⟩
    refine ⟨hpart, ?_⟩
    intro heq
    rw [heq] at hlt
    exact Nat.lt_irrefl _ hlt

theorem tested?_live? (buffer : Bytes) (place : Nat) : tested? live? 0 buffer place =
    if token.isPrefixOf (buffer.drop place) && isStub (buffer.drop place) then some place
    else none := by
  unfold tested?
  by_cases hp : token.isPrefixOf (buffer.drop place) = true
  · have hlive := isStub_token (buffer.drop (place + token.length))
    rw [drop_token (List.isPrefixOf_iff_prefix.mp hp)] at hlive
    simp [live?, hp, hlive]
  · simp [hp]

theorem prefix_of_isStub (buffer : Bytes) (hs : isStub buffer = true)
    (hp : token.isPrefixOf buffer = false) : buffer ≠ [] ∧ buffer <+: token := by
  simpa [isStub, hp] using hs

private theorem length_lt_of_isStub (buffer : Bytes) (hs : isStub buffer = true)
    (hp : token.isPrefixOf buffer = false) : buffer.length < token.length := by
  obtain ⟨_, hpart⟩ := prefix_of_isStub buffer hs hp
  have htoken : token.isPrefixOf token = true := by decide
  apply Nat.lt_of_not_le
  intro hle
  rw [hpart.eq_of_length_le hle, htoken] at hp
  contradiction

private theorem find?_longest (test : Nat → Bool) (most : Nat) :
    let found := ((List.range' 1 most).reverse.find? test).getD 0
    found ≤ most ∧ (found = 0 ∨ test found = true) ∧
      ∀ n, found < n → n ≤ most → test n = false := by
  induction most with
  | zero =>
    refine ⟨Nat.le_refl 0, .inl rfl, ?_⟩
    intro n hpos hle
    omega
  | succ most ih =>
    rw [List.range'_1_concat, List.reverse_append, List.reverse_singleton, List.singleton_append,
      List.find?_cons, Nat.add_comm 1 most]
    cases ht : test (most + 1) with
    | true =>
      refine ⟨Nat.le_refl _, .inr ht, ?_⟩
      intro n hlt hle
      exact absurd hle (Nat.not_le.mpr hlt)
    | false =>
      obtain ⟨hle, hfound, hlonger⟩ := ih
      refine ⟨Nat.le_succ_of_le hle, hfound, ?_⟩
      intro n hlt hn
      rcases Nat.lt_or_ge most n with hm | hm
      · obtain rfl : n = most + 1 := by omega
        exact ht
      · exact hlonger n hlt hm

theorem tokenPart_longest (buffer : Bytes) :
    tokenPart buffer < token.length ∧ token.take (tokenPart buffer) <:+ buffer ∧
      ∀ n, tokenPart buffer < n → n < token.length → ¬ token.take n <:+ buffer := by
  obtain ⟨hle, hfound, hlonger⟩ :=
    find?_longest (fun n => (token.take n).isSuffixOf buffer) (token.length - 1)
  have hpos : 0 < token.length := by decide
  refine ⟨Nat.lt_of_le_pred hpos hle, ?_, ?_⟩
  · rcases hfound with hzero | htest
    · rw [tokenPart, hzero]
      exact List.nil_suffix
    · exact List.isSuffixOf_iff_suffix.mp htest
  · intro n hlt hn hsuffix
    have htest := hlonger n hlt (Nat.le_pred_of_lt hn)
    rw [List.isSuffixOf_iff_suffix.mpr hsuffix] at htest
    contradiction

/-- The first token that may still become a header is the front of the first stub, since a part of a
token at the end of the buffer would have to hold that token. -/
private theorem eq_deadLength_of_live (buffer : Bytes) (found : Nat)
    (hlive : IsFirst (tested? live? 0 buffer) (some found)) : found = deadLength buffer := by
  obtain ⟨place, hplace, hearlier⟩ := hlive
  rw [tested?_live?] at hplace
  split at hplace
  · rename_i hc
    obtain rfl : place = found := Option.some.inj hplace
    rw [Bool.and_eq_true] at hc
    obtain ⟨hp, hs⟩ := hc
    have hlen : token.length ≤ (buffer.drop place).length :=
      (List.isPrefixOf_iff_prefix.mp hp).length_le
    have hpos : 0 < token.length := by decide
    rw [List.length_drop] at hlen
    apply eq_deadLength buffer place (by omega)
    · intro earlier hlt
      have hnone := hearlier earlier hlt
      rw [tested?_live?] at hnone
      apply Bool.eq_false_iff.mpr
      intro hstub
      by_cases hp' : token.isPrefixOf (buffer.drop earlier) = true
      · simp [hp', hstub] at hnone
      · have hshort := length_lt_of_isStub _ hstub (Bool.eq_false_iff.mpr hp')
        rw [List.length_drop] at hshort
        omega
    · intro _
      exact hs
  · contradiction

private theorem eq_deadLength_of_part (buffer : Bytes)
    (hlive : IsFirst (tested? live? 0 buffer) none) :
    buffer.length - tokenPart buffer = deadLength buffer := by
  obtain ⟨hlt, hpart, hlonger⟩ := tokenPart_longest buffer
  have hlen : (token.take (tokenPart buffer)).length = tokenPart buffer :=
    List.length_take_of_le (Nat.le_of_lt hlt)
  have hle := hpart.length_le
  rw [hlen] at hle
  apply eq_deadLength buffer _ (Nat.sub_le _ _)
  · intro place hplace
    apply Bool.eq_false_iff.mpr
    intro hstub
    have hnone := hlive place
    rw [tested?_live?] at hnone
    have hp : token.isPrefixOf (buffer.drop place) = false := by
      apply Bool.eq_false_iff.mpr
      intro hp
      simp [hp, hstub] at hnone
    obtain ⟨_, hprefix⟩ := prefix_of_isStub _ hstub hp
    have hshort := length_lt_of_isStub _ hstub hp
    have hlength := List.length_drop (i := place) (l := buffer)
    apply hlonger (buffer.drop place).length (by omega) hshort
    rw [← List.prefix_iff_eq_take.mp hprefix]
    exact List.drop_suffix _ _
  · intro hlast
    have hdrop : buffer.drop (buffer.length - tokenPart buffer) = token.take (tokenPart buffer) := by
      have hend := List.suffix_iff_eq_drop.mp hpart
      rw [hlen] at hend
      exact hend.symm
    have hparts : ∀ n < token.length, 0 < n → isStub (token.take n) = true := by decide
    rw [hdrop]
    exact hparts _ hlt (by omega)

theorem keptFrom_eq_deadLength (buffer : Bytes) : keptFrom buffer = deadLength buffer := by
  have hlive := isFirst_firstCandidate? live? 0 buffer
  unfold keptFrom
  cases hfound : firstCandidate? live? 0 buffer with
  | some found =>
    rw [hfound] at hlive
    exact eq_deadLength_of_live buffer found hlive
  | none =>
    rw [hfound] at hlive
    exact eq_deadLength_of_part buffer hlive

end NoiseGate.Header

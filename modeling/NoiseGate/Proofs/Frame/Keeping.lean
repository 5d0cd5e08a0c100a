import NoiseGate.Proofs.Frame.Candidates

/-!
# What is dropped and what is kept

Of a buffer without a header the dead bytes are dropped: no bytes that come later make one of them
part of a header. The bytes that are kept are a stub. A stub is told by its form alone, and there
are two kinds of stubs that no bytes complete: a separator that begins where the digits should, and
digits for a frame too large to be counted. Every other stub begins a header as soon as the right
bytes come.
-/

namespace NoiseGate.Header

/-- A header that has been located stays. If there is none, the dead bytes may be dropped before more
bytes come, since no header will stand in them. The search by candidates keeps the same bytes. -/
theorem locate_survives_trimming (buffer more : Bytes) :
    (∀ h, locate buffer = some h → locate (buffer ++ more) = some h) ∧
    (locate buffer = none → deadLength buffer ≤ buffer.length ∧
      locate (buffer ++ more) =
        (locate (buffer.drop (deadLength buffer) ++ more)).map (shift (deadLength buffer)) ∧
      ∀ place < deadLength buffer, ∀ digits, ¬ StandsAt (buffer ++ more) place digits) ∧
    keptFrom buffer = deadLength buffer := by
  refine ⟨fun h => locate_append_of_some buffer more h, ?_, keptFrom_eq_deadLength buffer⟩
  intro hn
  have hmore := locate_append_of_none buffer more hn
  refine ⟨deadLength_le buffer, hmore, ?_⟩
  intro place hlt digits hs
  obtain ⟨h, hl, hle⟩ := exists_locate_of_standsAt (buffer ++ more) place digits hs
  rw [hmore] at hl
  obtain ⟨later, _, rfl⟩ := Option.map_eq_some_iff.mp hl
  rw [shift_start] at hle
  omega

/-- A header that is there before more bytes come, and one whose digits are cut behind noise that holds
a token. -/
theorem locate_survives_trimming_cut :
    let whole := ascii "Content-Length: 2\r\n\r\n"
    let cut := ascii "Content-Length: x Content-Length: 4"
    let more := ascii "2\r\n\r\n"
    (∃ h, locate whole = some h ∧ locate (whole ++ more) = some h) ∧ locate cut = none ∧
      deadLength cut = 18 ∧ locate (cut ++ more) = (locate (cut.drop 18 ++ more)).map (shift 18) ∧
      ∀ place < 18, ∀ digits, ¬ StandsAt (cut ++ more) place digits := by
  intro whole cut more
  have hwhole : locate whole = some (spelledAt 0 [50]) := by decide
  have hcut : locate cut = none := by decide
  have hdead : deadLength cut = 18 := by decide
  obtain ⟨_, hmoved, hdropped⟩ := (locate_survives_trimming cut more).2.1 hcut
  rw [hdead] at hmoved hdropped
  exact ⟨⟨_, hwhole, (locate_survives_trimming whole more).1 _ hwhole⟩, hcut, hdead, hmoved, hdropped⟩

/-- A stub that no bytes complete: something other than a digit stands behind its token, or its
digits announce a frame that cannot be counted. -/
def isHopeless (stub : Bytes) : Bool :=
  token.isPrefixOf stub &&
    let tail := stub.drop token.length
    let digits := tail.takeWhile isDigit
    digits.isEmpty && !tail.isEmpty || wordMax < sizeOf digits.length + digitsValue digits

private theorem announces_zero : Announces [48] := ⟨by decide, by simp [isDigit], by decide⟩

theorem completed_of_isHopeless_eq_false (stub : Bytes) (hs : isStub stub = true)
    (hh : isHopeless stub = false) : ∃ more digits, Announces digits ∧ stub ++ more = spell digits := by
  by_cases hp : token.isPrefixOf stub = true
  · obtain ⟨tail, rfl⟩ := List.isPrefixOf_iff_prefix.mp hp
    have hd := takeWhile_isDigit tail
    have hsplit : tail.takeWhile isDigit ++ tail.dropWhile isDigit = tail :=
      List.takeWhile_append_dropWhile
    simp only [isHopeless, hp, List.drop_left, Bool.true_and, Bool.or_eq_false_iff,
      Bool.and_eq_false_iff, Bool.not_eq_false', decide_eq_false_iff_not, Nat.not_lt] at hh
    simp only [isStub, hp, if_true, List.drop_left, Bool.and_eq_true,
      List.isPrefixOf_iff_prefix] at hs
    obtain ⟨hempty, hcount⟩ := hh
    obtain ⟨⟨rest, hrest⟩, _⟩ := hs
    by_cases hne : tail.takeWhile isDigit = []
    · have htail : tail = [] := by simpa [hne] using hempty
      refine ⟨[48] ++ separator, [48], announces_zero, ?_⟩
      rw [htail, List.append_nil, spell, List.append_assoc]
    · refine ⟨rest, tail.takeWhile isDigit, ⟨hne, hd, hcount⟩, ?_⟩
      calc token ++ tail ++ rest
          = token ++ (tail.takeWhile isDigit ++ tail.dropWhile isDigit) ++ rest := by rw [hsplit]
        _ = spell (tail.takeWhile isDigit) := by
          rw [spell, ← hrest, List.append_assoc, List.append_assoc, List.append_assoc]
  · obtain ⟨_, rest, hrest⟩ := prefix_of_isStub stub hs (Bool.eq_false_iff.mpr hp)
    refine ⟨rest ++ ([48] ++ separator), [48], announces_zero, ?_⟩
    rw [← List.append_assoc, hrest, spell, List.append_assoc]

theorem notMem_of_isStub (stub noise inner : Bytes) (hs : isStub stub = true)
    (hsplit : stub = noise ++ inner) (hn : noise ≠ []) : mark ∉ inner := by
  obtain ⟨_, digits, hd, ⟨rest, hrest⟩, _⟩ := (isStub_iff stub).mp hs
  intro hm
  rw [hsplit, List.append_assoc] at hrest
  apply spell_overlap digits noise (inner ++ rest) hd hrest.symm hn
  exact List.mem_append_left rest hm

private theorem not_announces_of_isHopeless (stub more digits rest : Bytes)
    (hh : isHopeless stub = true) (hs : stub ++ more = spell digits ++ rest) :
    ¬ Announces digits := by
  intro ha
  simp only [isHopeless, Bool.and_eq_true, List.isPrefixOf_iff_prefix, Bool.or_eq_true,
    decide_eq_true_eq] at hh
  obtain ⟨⟨tail, rfl⟩, hh⟩ := hh
  rw [List.drop_left] at hh
  have htail : tail ++ more = digits ++ (separator ++ rest) := by
    rw [spell, List.append_assoc, List.append_assoc, List.append_assoc] at hs
    exact List.append_cancel_left hs
  have htake := takeWhile_digits digits rest ha.isDigit
  rw [← htail, List.takeWhile_append] at htake
  have hcount := ha.countable
  split at htake
  · rename_i hall
    -- the digits go on behind the stub, and more of them make no frame smaller
    have hself : tail.takeWhile isDigit = tail := (List.takeWhile_prefix _).eq_of_length hall
    rw [hself] at hh
    have hsize : tail.length ≤ digits.length := by
      rw [← htake, List.length_append]
      exact Nat.le_add_right _ _
    have hvalue : digitsValue tail ≤ digitsValue digits := by
      rw [← htake]
      exact digitsValue_le_append tail _
    rcases hh with ⟨hempty, hne⟩ | hlarge
    · rw [hempty] at hne
      contradiction
    · unfold sizeOf at hlarge hcount
      omega
  · rw [htake] at hh
    rcases hh with ⟨hempty, _⟩ | hlarge
    · exact ha.ne_nil (List.isEmpty_iff.mp hempty)
    · omega

/-- No bytes make any byte of a hopeless stub a part of a header. -/
theorem length_le_start_of_isHopeless (stub more : Bytes) (h : Header) (hs : isStub stub = true)
    (hh : isHopeless stub = true) (hl : locate (stub ++ more) = some h) : stub.length ≤ h.start := by
  obtain ⟨noise, digits, rest, hsplit, _, ha, rfl⟩ := (locate_eq_some_iff _ h).mp hl
  rw [spelledAt_start]
  apply Nat.le_of_not_lt
  intro hlt
  have hnoise : noise <+: stub := by
    apply List.prefix_of_prefix_length_le _ (List.prefix_append stub more) (Nat.le_of_lt hlt)
    exact ⟨_, hsplit.symm⟩
  obtain ⟨inner, rfl⟩ := hnoise
  rw [List.append_assoc] at hsplit
  have hrest : inner ++ more = spell digits ++ rest := List.append_cancel_left hsplit
  by_cases hn : noise = []
  · subst hn
    exact not_announces_of_isHopeless inner more digits rest hh hrest ha
  · have hinner : inner ≠ [] := by
      rintro rfl
      rw [List.append_nil] at hlt
      exact Nat.lt_irrefl _ hlt
    obtain ⟨b, inner, rfl⟩ := List.exists_cons_of_ne_nil hinner
    rw [spell_eq_cons, List.cons_append, List.cons_append] at hrest
    apply notMem_of_isStub _ noise (b :: inner) hs rfl hn
    rw [(List.cons.inj hrest).1]
    exact List.mem_cons_self

theorem length_le_start_of_kept (buffer more : Bytes) (h : Header) (hn : locate buffer = none)
    (hk : deadLength buffer < buffer.length)
    (hh : isHopeless (buffer.drop (deadLength buffer)) = true)
    (hl : locate (buffer ++ more) = some h) : buffer.length ≤ h.start := by
  have hs := isStub_drop_deadLength buffer hk
  rw [locate_append_of_none buffer more hn] at hl
  obtain ⟨later, hlater, rfl⟩ := Option.map_eq_some_iff.mp hl
  have hle := length_le_start_of_isHopeless _ more later hs hh hlater
  rw [List.length_drop] at hle
  rw [shift_start]
  omega

theorem not_begins_of_isHopeless (buffer : Bytes) (hn : locate buffer = none)
    (hk : deadLength buffer < buffer.length)
    (hh : isHopeless (buffer.drop (deadLength buffer)) = true) :
    ¬ ∃ more h, locate (buffer ++ more) = some h ∧ h.start = deadLength buffer := by
  rintro ⟨more, h, hl, hstart⟩
  have hle := length_le_start_of_kept buffer more h hn hk hh hl
  omega

/-- Where the bytes that are kept of a buffer without a header begin, a header begins once the right
bytes come, unless the kept bytes are a hopeless stub. Then none of them ever becomes part of a
header. -/
theorem kept_begins_header (buffer : Bytes) (hn : locate buffer = none)
    (hk : deadLength buffer < buffer.length) :
    (isHopeless (buffer.drop (deadLength buffer)) = false →
      ∃ more h, locate (buffer ++ more) = some h ∧ h.start = deadLength buffer) ∧
    (isHopeless (buffer.drop (deadLength buffer)) = true →
      ∀ more h, locate (buffer ++ more) = some h → buffer.length ≤ h.start) := by
  constructor
  · intro hh
    have hs := isStub_drop_deadLength buffer hk
    obtain ⟨more, digits, ha, hspell⟩ := completed_of_isHopeless_eq_false _ hs hh
    have hl := locate_append_spell [] digits [] locate_nil ha
    rw [List.nil_append, List.append_nil] at hl
    refine ⟨more, (spelledAt 0 digits).shift (deadLength buffer), ?_, rfl⟩
    rw [locate_append_of_none buffer more hn, hspell, hl]
    rfl
  · intro hh more h hl
    exact length_le_start_of_kept buffer more h hn hk hh hl

/-- The largest length with which a frame can still be counted, and the next one. -/
theorem kept_begins_header_limit :
    let fits := ascii "noise Content-Length: 18446744073709551575\r\n"
    let large := ascii "noise Content-Length: 18446744073709551576\r\n"
    (locate fits = none ∧ deadLength fits < fits.length ∧
      ∃ more h, locate (fits ++ more) = some h ∧ h.start = deadLength fits) ∧
    locate large = none ∧ deadLength large < large.length ∧
      ∀ more h, locate (large ++ more) = some h → large.length ≤ h.start := by
  intro fits large
  have hfits : locate fits = none := by decide
  have hkept : deadLength fits < fits.length := by decide
  have hlarge : locate large = none := by decide
  have hkept' : deadLength large < large.length := by decide
  exact ⟨⟨hfits, hkept, (kept_begins_header fits hfits hkept).1 (by decide)⟩, hlarge, hkept',
    (kept_begins_header large hlarge hkept').2 (by decide)⟩

/-- A separator that begins right behind the token, and digits that announce too much, are kept
although no bytes make a header begin there. -/
theorem hopeless_stubs_are_kept :
    let bare := ascii "Content-Length: \r"
    let large := ascii "Content-Length: 99999999999999999999"
    (locate bare = none ∧ deadLength bare < bare.length ∧
      ¬ ∃ more h, locate (bare ++ more) = some h ∧ h.start = deadLength bare) ∧
    locate large = none ∧ deadLength large < large.length ∧
      ¬ ∃ more h, locate (large ++ more) = some h ∧ h.start = deadLength large := by
  intro bare large
  have hbare : locate bare = none := by decide
  have hkept : deadLength bare < bare.length := by decide
  have hlarge : locate large = none := by decide
  have hkept' : deadLength large < large.length := by decide
  exact ⟨⟨hbare, hkept, not_begins_of_isHopeless bare hbare hkept (by decide)⟩, hlarge, hkept',
    not_begins_of_isHopeless large hlarge hkept' (by decide)⟩

end NoiseGate.Header

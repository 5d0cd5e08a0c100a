import NoiseGate.Frame.Guarded
import NoiseGate.Proofs.Frame.Candidates

/-!
# The search stays in bounds

A guarded run that stays in bounds gives what the same steps give without a guard, and a loop whose
rounds get nearer to the end gives what its last round gives. The search for a token gets nearer to
the end of the buffer by a whole token in each round that goes on. So the search for the first header
and the search for the first stub give what they should, in every buffer that can be counted.
-/

namespace NoiseGate.Guarded

variable {σ α β : Type}

theorem add_eq (m n : Nat) (h : m + n ≤ wordMax) : add m n = pure (m + n) := if_pos h

theorem sub_eq (m n : Nat) (h : n ≤ m) : sub m n = pure (m - n) := if_pos h

theorem size_eq (buffer : Bytes) (h : buffer.length ≤ wordMax) : size buffer = pure buffer.length :=
  if_pos h

theorem cut_eq (buffer : Bytes) (place : Nat) (h : place ≤ buffer.length) :
    cut buffer place = pure (buffer.take place, buffer.drop place) := if_pos h

theorem slice_eq (buffer : Bytes) (start length : Nat) (h : start + length ≤ buffer.length) :
    slice buffer start (start + length) = pure ((buffer.drop start).take length) := by
  rw [slice, if_pos ⟨Nat.le_add_right _ _, h⟩, List.drop_take, Nat.add_sub_cancel_left]

/-- A loop ends with a result if, as long as an invariant holds, each round is done with the result
of its state or goes on from a state that is nearer to the end and has the same result. -/
theorem loop_eq (measure : σ → Nat) (stride : Nat) (hs : 0 < stride)
    (round : σ → Guarded (Round σ α)) (Inv : σ → Prop) (result : σ → α)
    (hround : ∀ state, Inv state → round state = pure (.done (result state)) ∨
      ∃ next, round state = pure (.again next) ∧ Inv next ∧
        measure next + stride ≤ measure state ∧ result next = result state)
    (state : σ) (hi : Inv state) : loop measure stride hs round state = pure (result state) := by
  induction hm : measure state using Nat.strongRecOn generalizing state with
  | ind m ih =>
    rcases hround state hi with hdone | ⟨next, hagain, hnext, hle, hsame⟩
    · rw [loop, hdone, pure_bind]
    · rw [loop, hagain, pure_bind, ← hsame]
      dsimp only
      rw [dif_pos hle]
      exact ih _ (by omega) next hnext rfl

theorem find_eq (word buffer : Bytes) (start : Nat) (hw : word ≠ [])
    (hlen : buffer.length ≤ wordMax) (hs : start ≤ buffer.length) :
    find word buffer start = pure ((Header.place? word (buffer.drop start)).map (start + ·)) := by
  rw [find, if_pos hs]
  cases hp : Header.place? word (buffer.drop start) with
  | none => rfl
  | some skipped =>
    have hle := Header.place?_add_length_le hw hp
    rw [List.length_drop] at hle
    dsimp only
    rw [add_eq start skipped (by omega), pure_bind]
    rfl

theorem pure_inj {a b : α} (h : (pure a : Guarded α) = pure b) : a = b :=
  Except.ok.inj h

theorem exists_of_bind {first : Guarded α} {next : α → Guarded β} {b : β}
    (h : first >>= next = pure b) : ∃ a, first = pure a ∧ next a = pure b := by
  cases first with
  | ok a => exact ⟨a, rfl, h⟩
  | error trap => cases h

theorem eq_of_add {m n sum : Nat} (h : add m n = pure sum) : m + n = sum := by
  unfold add counted at h
  split at h
  · exact pure_inj h
  · cases h

theorem find_bounds {word buffer : Bytes} {start place : Nat} (hw : word ≠ [])
    (h : find word buffer start = pure (some place)) :
    start ≤ place ∧ place + word.length ≤ buffer.length := by
  unfold find at h
  split at h
  · split at h
    · cases h
    · rename_i skipped hp
      obtain ⟨sum, hsum, h⟩ := exists_of_bind h
      have hplace := eq_of_add hsum
      cases pure_inj h
      have hle := Header.place?_add_length_le hw hp
      rw [List.length_drop] at hle
      omega
  · cases h

theorem tokenRound_again (test : Nat → Nat → Guarded (Option α)) (buffer : Bytes)
    (start behind : Nat) (h : tokenRound test buffer start = pure (.again behind)) :
    start + Header.token.length ≤ behind ∧ behind ≤ buffer.length := by
  obtain ⟨found, hfind, h⟩ := exists_of_bind h
  cases found with
  | none => cases pure_inj h
  | some place =>
    obtain ⟨next, hnext, h⟩ := exists_of_bind h
    obtain ⟨outcome, _, h⟩ := exists_of_bind h
    cases outcome with
    | some result => cases pure_inj h
    | none =>
      have hplace := find_bounds (by decide) hfind
      have hbehind := eq_of_add hnext
      cases pure_inj h
      omega

theorem tokenRound_of_none (test : Nat → Nat → Guarded (Option α)) (buffer : Bytes) (start : Nat)
    (hlen : buffer.length ≤ wordMax) (hs : start ≤ buffer.length)
    (hp : Header.place? Header.token (buffer.drop start) = none) :
    tokenRound test buffer start = pure (.done none) := by
  rw [tokenRound, find_eq _ buffer start (by decide) hlen hs, hp, pure_bind]
  rfl

theorem tokenRound_of_some (test : Nat → Nat → Guarded (Option α)) (buffer : Bytes)
    (start skipped : Nat) (outcome : Option α) (hlen : buffer.length ≤ wordMax)
    (hs : start ≤ buffer.length)
    (hp : Header.place? Header.token (buffer.drop start) = some skipped)
    (htest : test (start + skipped) (start + skipped + Header.token.length) = pure outcome) :
    tokenRound test buffer start =
      pure (outcome.elim (.again (start + skipped + Header.token.length)) (.done ∘ some)) := by
  have hle := Header.place?_add_length_le (by decide) hp
  rw [List.length_drop] at hle
  rw [tokenRound, find_eq _ buffer start (by decide) hlen hs, hp, pure_bind]
  dsimp only [Option.map_some]
  rw [add_eq _ _ (by omega), pure_bind, htest, pure_bind]
  cases outcome <;> rfl

/-- The guarded search gives the first candidate that passes a test, if the guarded test gives in
every place what the test does. -/
theorem search_eq (test : Nat → Nat → Guarded (Option α)) (test? : Nat → Bytes → Option α)
    (buffer : Bytes) (hlen : buffer.length ≤ wordMax)
    (htest : ∀ place, place + Header.token.length ≤ buffer.length →
      test place (place + Header.token.length) =
        pure (test? place (buffer.drop (place + Header.token.length)))) :
    search test buffer = pure (Header.firstCandidate? test? 0 buffer) := by
  apply loop_eq _ _ _ (tokenRound test buffer) (· ≤ buffer.length)
    (fun start => Header.firstCandidate? test? start (buffer.drop start)) _ 0 (Nat.zero_le _)
  intro start hs
  -- what the search still gives from a place is what a search of the bytes from there gives
  rw [Header.firstCandidate?]
  split
  · rename_i hp
    exact .inl (tokenRound_of_none test buffer start hlen hs hp)
  · rename_i skipped hp
    have hle := Header.place?_add_length_le (by decide) hp
    rw [List.length_drop] at hle
    have hround := tokenRound_of_some test buffer start skipped _ hlen hs hp
      (htest (start + skipped) (by omega))
    dsimp only
    rw [List.drop_drop, ← Nat.add_assoc]
    cases ht : test? (start + skipped) (buffer.drop (start + skipped + Header.token.length)) with
    | some result =>
      rw [ht] at hround
      exact .inl hround
    | none =>
      rw [ht] at hround
      obtain ⟨hahead, hinside⟩ := tokenRound_again test buffer start _ hround
      exact .inr ⟨_, hround, hinside, by omega, rfl⟩

theorem readValue_eq (digits : Bytes) (n : Nat) (hd : ∀ d ∈ digits, isDigit d = true) :
    readValue n digits = pure (digits.foldlM Header.pushDigit? n) := by
  induction digits generalizing n with
  | nil => rfl
  | cons d digits ih =>
    have hzero : 48 ≤ d.toNat := by
      have hdigit := hd d List.mem_cons_self
      simp only [isDigit, Bool.and_eq_true, decide_eq_true_eq] at hdigit
      exact hdigit.1
    rw [readValue, List.foldlM_cons, Header.pushDigit?]
    cases Header.counted? (10 * n) with
    | none => rfl
    | some tens =>
      dsimp only [Option.bind_some]
      rw [sub_eq d.toNat 48 hzero, pure_bind, ← digitValue]
      cases Header.counted? (tens + digitValue d) with
      | none => rfl
      | some n => exact ih n fun c hc => hd c (List.mem_cons_of_mem d hc)

theorem readLength_eq (bytes : Bytes) : readLength bytes = pure (Header.length? bytes) := by
  unfold readLength Header.length?
  split
  · rfl
  · rename_i hc
    rw [Bool.not_eq_true, Bool.or_eq_false_iff, Bool.not_eq_false', List.all_eq_true] at hc
    exact readValue_eq bytes 0 hc.2

theorem candidate_eq (buffer : Bytes) (place : Nat) (hlen : buffer.length ≤ wordMax)
    (hp : place + Header.token.length ≤ buffer.length) :
    candidate buffer place (place + Header.token.length) =
      pure ((Header.candidate? place (buffer.drop (place + Header.token.length))).map
        Header.found) := by
  rw [candidate, find_eq _ buffer _ (by decide) hlen hp, pure_bind, Header.candidate?]
  cases hs : Header.place? Header.separator (buffer.drop (place + Header.token.length)) with
  | none => rfl
  | some digits =>
    have hle := Header.place?_add_length_le (by decide) hs
    rw [List.length_drop] at hle
    dsimp only [Option.map_some, Option.bind_some]
    rw [slice_eq buffer _ digits (by omega), pure_bind, readLength_eq, pure_bind]
    cases Header.length? ((buffer.drop (place + Header.token.length)).take digits) with
    | none => rfl
    | some payload =>
      have hstop : place + Header.token.length + digits + Header.separator.length =
          place + Header.sizeOf digits := by
        rw [Header.sizeOf, ← Nat.add_assoc, ← Nat.add_assoc]
      dsimp only [Option.bind_some]
      rw [add_eq _ _ (by omega), pure_bind, hstop, sub_eq _ _ (Nat.le_add_right _ _), pure_bind,
        Nat.add_sub_cancel_left]
      cases Header.counted? (Header.sizeOf digits + payload) with
      | none => rfl
      | some frameSize => rfl

theorem locate_eq (buffer : Bytes) (hlen : buffer.length ≤ wordMax) :
    locate buffer = pure ((Header.locate buffer).map Header.found) := by
  have hsearch := search_eq (candidate buffer)
    (fun pos tail => (Header.candidate? pos tail).map Header.found) buffer hlen
    (fun place hp => candidate_eq buffer place hlen hp)
  rw [Header.firstCandidate?_map] at hsearch
  rw [locate, hsearch, ← Header.search_eq_locate, Header.search]

theorem isLive_eq (tail : Bytes) : isLive tail = pure (Header.isLive tail) := by
  have hle : (tail.takeWhile isDigit).length ≤ tail.length :=
    (List.takeWhile_prefix isDigit).length_le
  have hsplit : tail.takeWhile isDigit ++ tail.dropWhile isDigit = tail :=
    List.takeWhile_append_dropWhile
  have hdrop : tail.drop (tail.takeWhile isDigit).length = tail.dropWhile isDigit :=
    (congrArg (List.drop _) hsplit).symm.trans List.drop_left
  rw [isLive, cut_eq tail _ hle, pure_bind, Header.isLive]
  dsimp only
  rw [hdrop]

theorem live_eq (buffer : Bytes) (place : Nat)
    (hp : place + Header.token.length ≤ buffer.length) :
    live buffer place (place + Header.token.length) =
      pure (Header.live? place (buffer.drop (place + Header.token.length))) := by
  rw [live, cut_eq buffer _ hp, pure_bind]
  dsimp only
  rw [isLive_eq, pure_bind, Header.live?]

theorem tokenPart_eq (buffer : Bytes) (most : Nat) (hm : most ≤ Header.token.length) :
    tokenPart buffer most = pure (((List.range' 1 most).reverse.find? fun n =>
      (Header.token.take n).isSuffixOf buffer).getD 0) := by
  induction most with
  | zero => rfl
  | succ most ih =>
    rw [tokenPart, cut_eq _ _ hm, pure_bind, List.range'_1_concat, List.reverse_append,
      List.reverse_singleton, List.singleton_append, List.find?_cons, Nat.add_comm 1 most]
    dsimp only
    cases (Header.token.take (most + 1)).isSuffixOf buffer with
    | true => rfl
    | false => exact ih (Nat.le_of_succ_le hm)

theorem deadLength_eq (buffer : Bytes) (hlen : buffer.length ≤ wordMax) :
    deadLength buffer = pure (Header.deadLength buffer) := by
  have hpart := tokenPart_eq buffer (Header.token.length - 1) (Nat.sub_le _ _)
  obtain ⟨hlt, hsuffix, _⟩ := Header.tokenPart_longest buffer
  have hle := hsuffix.length_le
  rw [List.length_take_of_le (Nat.le_of_lt hlt)] at hle
  rw [← Header.keptFrom_eq_deadLength, Header.keptFrom, deadLength,
    search_eq _ _ buffer hlen (fun place hp => live_eq buffer place hp), pure_bind]
  cases Header.firstCandidate? Header.live? 0 buffer with
  | some place => rfl
  | none =>
    dsimp only [Option.getD_none]
    rw [size_eq buffer hlen, pure_bind, hpart, pure_bind, ← Header.tokenPart]
    exact sub_eq _ _ hle

end NoiseGate.Guarded

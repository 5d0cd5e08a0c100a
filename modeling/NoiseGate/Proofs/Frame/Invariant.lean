import NoiseGate.Proofs.Frame.Assembling
import NoiseGate.Proofs.Frame.Keeping
import NoiseGate.Proofs.Frame.Layout

/-!
# Between two chunks

A sanitizer and the assembler behind it never see each other, and yet their states fit together
between any two chunks. Either the sanitizer scans, the assembler holds nothing, and the pending
bytes are the beginning of a header; or a payload is owed, and the assembler holds the header and
as much of the payload as has come. A chunk leaves them so wherever it ends and however many
messages it completes.
-/

namespace NoiseGate

open Header Segment

namespace Header

/-- No more than the beginning of a header: nothing, a part of the token, or the token with some
digits, which may be none, and a part of the separator, which may be empty. -/
inductive Unfinished : Bytes → Prop
  | nothing : Unfinished []
  | inToken (part : Bytes) (hne : part ≠ []) (hp : part <+: token) (hcut : part ≠ token) :
      Unfinished part
  | behindToken (digits part : Bytes) (hd : ∀ d ∈ digits, isDigit d = true)
      (hp : part <+: separator) (hcut : part ≠ separator) : Unfinished (token ++ digits ++ part)

theorem Unfinished.of_isStub (buffer : Bytes) (hs : isStub buffer = true) : Unfinished buffer := by
  by_cases hp : token.isPrefixOf buffer = true
  · obtain ⟨tail, rfl⟩ := List.isPrefixOf_iff_prefix.mp hp
    have hsplit : tail.takeWhile isDigit ++ tail.dropWhile isDigit = tail :=
      List.takeWhile_append_dropWhile
    simp only [isStub, hp, if_true, List.drop_left, Bool.and_eq_true, List.isPrefixOf_iff_prefix,
      bne_iff_ne] at hs
    have hl := Unfinished.behindToken _ _ (takeWhile_isDigit tail) hs.1 hs.2
    rwa [List.append_assoc, hsplit] at hl
  · obtain ⟨hne, hpart⟩ := prefix_of_isStub buffer hs (Bool.eq_false_iff.mpr hp)
    refine .inToken buffer hne hpart ?_
    rintro rfl
    exact hp (List.isPrefixOf_iff_prefix.mpr (List.prefix_refl _))

theorem Unfinished.isStub {buffer : Bytes} (hu : Unfinished buffer) (hne : buffer ≠ []) :
    isStub buffer = true := by
  cases hu with
  | nothing => contradiction
  | inToken _ _ hp hcut =>
    have hspell : token <+: spell [] := List.prefix_append _ _
    refine (isStub_iff buffer).mpr ⟨hne, [], by simp, hp.trans hspell, ?_⟩
    intro he
    rw [he] at hp
    have hle := hp.length_le
    rw [spell_length] at hle
    exact absurd hle (by decide)
  | behindToken digits part hd hp hcut =>
    refine (isStub_iff _).mpr ⟨hne, digits, hd, (List.prefix_append_right_inj _).mpr hp, ?_⟩
    intro he
    exact hcut (List.append_cancel_left he)

theorem Unfinished.deadLength {buffer : Bytes} (hu : Unfinished buffer) : deadLength buffer = 0 := by
  cases buffer with
  | nil => rfl
  | cons b rest => exact deadLength_cons_of_stub b rest (hu.isStub (List.cons_ne_nil b rest))

theorem eq_of_prefix_spell (digits longer : Bytes) (hd : ∀ d ∈ digits, isDigit d = true)
    (hl : ∀ d ∈ longer, isDigit d = true) (hp : spell digits <+: spell longer) :
    digits = longer := by
  obtain ⟨rest, hrest⟩ := hp
  have htail : digits ++ (separator ++ rest) = longer ++ (separator ++ []) := by
    rw [spell, spell, List.append_assoc, List.append_assoc, List.append_assoc] at hrest
    rw [List.append_nil]
    exact List.append_cancel_left hrest
  have htake := takeWhile_digits longer [] hl
  rwa [← htail, takeWhile_digits digits rest hd] at htake

/-- A stub stops inside the only header that it can begin, and no header begins behind its front. -/
theorem locate_of_isStub (stub : Bytes) (hs : isStub stub = true) : locate stub = none := by
  refine Option.eq_none_iff_forall_ne_some.mpr fun h hl => ?_
  obtain ⟨noise, digits, rest, hsplit, _, ha, rfl⟩ := (locate_eq_some_iff stub h).mp hl
  by_cases hn : noise = []
  · subst hn
    obtain ⟨_, longer, hd, hp, hcut⟩ := (isStub_iff stub).mp hs
    have hfront : spell digits <+: stub := ⟨rest, hsplit.symm⟩
    rw [eq_of_prefix_spell digits longer ha.isDigit hd (hfront.trans hp)] at hfront
    exact hcut (hp.eq_of_length_le hfront.length_le)
  · apply notMem_of_isStub stub noise _ hs hsplit hn
    rw [spell_eq_cons]
    exact List.mem_cons_self

theorem Unfinished.locate {buffer : Bytes} (hu : Unfinished buffer) : locate buffer = none := by
  by_cases hne : buffer = []
  · rw [hne]
    exact locate_nil
  · exact locate_of_isStub buffer (hu.isStub hne)

theorem unfinished_drop_deadLength (buffer : Bytes) :
    Unfinished (buffer.drop (Header.deadLength buffer)) := by
  by_cases hlt : Header.deadLength buffer < buffer.length
  · exact .of_isStub _ (isStub_drop_deadLength buffer hlt)
  · rw [List.drop_of_length_le (Nat.le_of_not_lt hlt)]
    exact .nothing

end Header

namespace Sanitizer

/-- The states of a sanitizer and of the assembler behind it fit together. -/
inductive InStep : Sanitizer → Assembler → Prop
  | scanning (pending : Bytes) (hp : Unfinished pending) : InStep (.scanning pending) .empty
  | waiting (digits payload : Bytes) (owed : Nat) (ho : 0 < owed) (ha : Announces digits)
      (hp : payload.length + owed = digitsValue digits) :
      InStep (.waiting owed ho) ⟨spell digits ++ payload⟩

theorem InStep.owed_le {s : Sanitizer} {a : Assembler} (h : InStep s a) :
    s.owed ≤ wordMax := by
  cases h with
  | scanning pending hp => exact Nat.zero_le _
  | waiting digits payload owed ho ha hp =>
    have hcount := ha.countable
    change owed ≤ wordMax
    omega

theorem scan_inStep (buffer : Bytes) :
    InStep (scan buffer).2 (Assembler.empty.pushAll (scan buffer).1).2 := by
  induction Layout.of_bytes buffer with
  | quiet noise hn =>
    rw [scan_of_none noise hn, Assembler.pushAll_noiseRun]
    exact .scanning _ (unfinished_drop_deadLength noise)
  | cut noise digits payload hn ha hp =>
    rw [scan_cut noise digits payload hn ha hp, Assembler.pushAll_noiseRun_append]
    exact .waiting digits payload _ _ ha (Nat.add_sub_cancel' (Nat.le_of_lt hp))
  | message noise digits payload rest hn ha hp hr ih =>
    rw [pushAll_scan_message noise digits payload rest hn ha hp,
      scan_message noise digits payload rest hn ha hp, prepend_snd]
    exact ih

/-- One chunk keeps the two in step. A payload may go on behind it, end with it or inside it. -/
theorem feed_inStep (s : Sanitizer) (a : Assembler) (chunk : Bytes) (hs : InStep s a) :
    InStep (s.feed chunk).2 (a.pushAll (s.feed chunk).1).2 := by
  by_cases hc : chunk = []
  · subst chunk
    rwa [feed_nil]
  cases hs with
  | scanning pending hp =>
    rw [feed_scanning pending chunk hc]
    exact scan_inStep _
  | waiting digits payload owed ho ha hp =>
    by_cases hle : owed ≤ chunk.length
    · rw [feed_waiting_of_le owed ho chunk hle, prepend_fst, prepend_snd, List.singleton_append,
        Assembler.pushAll_end]
      exact scan_inStep _
    · have hlt : chunk.length < owed := Nat.lt_of_not_le hle
      have hlen : (payload ++ chunk).length + (owed - chunk.length) = digitsValue digits := by
        rw [List.length_append]
        omega
      rw [feed_waiting_of_lt owed ho chunk hc hlt, Assembler.pushAll_piece, List.append_assoc]
      exact .waiting digits (payload ++ chunk) _ _ ha hlen

theorem feedAll_inStep (s : Sanitizer) (a : Assembler) (chunks : List Bytes) (hs : InStep s a) :
    InStep (s.feedAll chunks).2 (a.pushAll (s.feedAll chunks).1).2 := by
  induction chunks generalizing s a with
  | nil => exact hs
  | cons chunk chunks ih =>
    rw [feedAll_cons, prepend_fst, prepend_snd, Assembler.pushAll_append]
    exact ih _ _ (feed_inStep s a chunk hs)

/-- After any chunks, if the sanitizer scans then the assembler behind it holds nothing, and the
pending bytes are the beginning of a header, so that no header is found in them and none of them is
dead. If it waits then something is owed, and the assembler holds a header in front, and of its
frame all but what is owed. -/
theorem feedAll_stays_in_step (chunks : List Bytes) :
    let run := start.feedAll chunks
    let held := (Assembler.empty.pushAll run.1).2.held
    (∃ pending, run.2 = .scanning pending ∧ held = [] ∧ Unfinished pending ∧
      locate pending = none ∧ deadLength pending = 0) ∨
    ∃ owed ho, run.2 = .waiting owed ho ∧ 0 < owed ∧ held ≠ [] ∧
      ∃ h, locate held = some h ∧ h.start = 0 ∧ held.length + owed = h.frameSize := by
  intro run held
  have hstep : InStep run.2 (Assembler.empty.pushAll run.1).2 :=
    feedAll_inStep start .empty chunks (.scanning [] .nothing)
  change InStep run.2 ⟨held⟩ at hstep
  generalize held = bytes at hstep ⊢
  generalize run.2 = state at hstep ⊢
  cases hstep with
  | scanning pending hp => exact .inl ⟨pending, rfl, rfl, hp, hp.locate, hp.deadLength⟩
  | waiting digits payload owed ho ha hp =>
    have hl := locate_append_spell [] digits payload locate_nil ha
    have hne : spell digits ++ payload ≠ [] :=
      List.append_ne_nil_of_left_ne_nil (spell_ne_nil digits) payload
    refine .inr ⟨owed, ho, rfl, ho, hne, _, hl, rfl, ?_⟩
    rw [List.length_append, spell_length, spelledAt_frameSize, Nat.add_assoc, hp]

end Sanitizer

end NoiseGate

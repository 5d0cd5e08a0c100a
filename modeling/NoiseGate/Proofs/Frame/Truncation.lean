import NoiseGate.Proofs.Frame.RoundTrip

/-!
# Frames cut off by the end of the stream

The first bytes of a frame are read as an error wherever the stream ends behind them: inside the
token, inside the digits, where the rest of them is still a number, between the lines or inside the
body. There is one exception. The blank line in front of the body counts although its line feed
is missing, and an empty body lacks nothing then.
-/

namespace NoiseGate

open Header

theorem takeHeaders_lastLine (started : Bool) (length : Option Nat) (line : Bytes) (hne : line ≠ [])
    (hl : 10 ∉ line) : takeHeaders started length (line.map .byte) =
      match HeaderLine.ofBytes line with
      | .error e => (.error e, [])
      | .ok .blank => (length.elim (.error .noLength) (.ok ∘ some), [])
      | .ok _ => (.error .endInHeaders, []) := by
  obtain ⟨b, line, rfl⟩ := List.exists_cons_of_ne_nil hne
  have htake : takeLine [] ((b :: line).map .byte) = (.ok (b :: line), []) := by
    have hbytes := takeLine_bytes [] (b :: line) [] hl
    rw [List.append_nil, List.append_nil, takeLine, List.reverse_reverse] at hbytes
    exact hbytes
  have hend (length : Option Nat) : takeHeaders true length [] = (.error .endInHeaders, []) :=
    takeHeaders_of_end true length rfl
  rw [takeHeaders_of_line started length htake]
  cases HeaderLine.ofBytes (b :: line) with
  | error e => rfl
  | ok meaning =>
    cases meaning with
    | blank => rfl
    | length n => exact hend (some n)
    | other => exact hend length

theorem ofBytes_lengthLine (digits back : Bytes) (hne : digits ≠ [])
    (hd : ∀ d ∈ digits, isDigit d = true) (hv : digitsValue digits ≤ wordMax)
    (hascii : ∀ b ∈ back, b < 0x80) (hblank : ∀ c ∈ plainText back, isBlank c = true) :
    HeaderLine.ofBytes (token ++ digits ++ back) = .ok (.length (digitsValue digits)) := by
  have hempty : (plainText (token ++ digits)).isEmpty = false :=
    List.isEmpty_eq_false_iff.mpr (by simp [plainText, hne])
  rw [HeaderLine.ofBytes, Utf8.decode?_ascii _ (lengthLine_lt_ascii digits back hd hascii)]
  dsimp only
  rw [trim_lengthLine digits back hne hd hblank, hempty, lengthField?_spelled digits hne hd,
    Option.map_some, readWord_plainText digits hne hd hv]
  rfl

theorem readFrame_of_error {s rest : List Signal} {e : ReadError}
    (h : takeHeaders false none s = (.error e, rest)) : readFrame s = (.error e, rest) := by
  rw [readFrame, h]

theorem ofBytes_cut_token (part : Bytes) (hne : part ≠ []) (hp : part <+: token) :
    HeaderLine.ofBytes part =
      if part.length + 1 < token.length then .ok .other else .error (.badLength .empty) := by
  have hname : ∀ n < token.length - 1, n ≠ 0 →
      (HeaderLine.ofBytes (token.take n)).toOption = some .other := by decide
  have hpos : part.length ≠ 0 := by simpa using hne
  have hlen : token.length = 16 := by decide
  have hle := hp.length_le
  rw [List.prefix_iff_eq_take.mp hp, List.length_take_of_le hle]
  -- in front of the colon the line is about nothing, and right behind it there is no length
  by_cases hlt : part.length + 1 < token.length
  · have hother := hname part.length (by omega) hpos
    rw [if_pos hlt]
    cases hline : HeaderLine.ofBytes (token.take part.length) with
    | error e =>
      rw [hline] at hother
      contradiction
    | ok meaning =>
      rw [hline] at hother
      rw [Option.some.inj hother]
  · rw [if_neg hlt]
    obtain hcolon | hblank : part.length = 15 ∨ part.length = 16 := by omega
    · rw [hcolon]
      rfl
    · rw [hblank]
      rfl

theorem readFrame_cut_token (part : Bytes) (hne : part ≠ []) (hp : part <+: token) :
    readFrame (part.map .byte) = (.error
      (if part.length + 1 < token.length then .endInHeaders else .badLength .empty), []) := by
  have hlf : 10 ∉ part := by
    intro h
    have htoken : 10 ∉ token := by decide
    exact htoken (hp.subset h)
  apply readFrame_of_error
  rw [takeHeaders_lastLine false none part hne hlf, ofBytes_cut_token part hne hp]
  by_cases hlt : part.length + 1 < token.length
  · simp only [if_pos hlt]
  · simp only [if_neg hlt]

theorem readFrame_cut_digits (digits back : Bytes) (hne : digits ≠ [])
    (hd : ∀ d ∈ digits, isDigit d = true) (hv : digitsValue digits ≤ wordMax)
    (hb : back = [] ∨ back = [13]) :
    readFrame ((token ++ digits ++ back).map .byte) = (.error .endInHeaders, []) := by
  have hline : HeaderLine.ofBytes (token ++ digits ++ back) = .ok (.length (digitsValue digits)) := by
    rcases hb with rfl | rfl
    · exact ofBytes_lengthLine digits [] hne hd hv (by simp) (by simp [plainText])
    · exact ofBytes_lengthLine digits [13] hne hd hv (by simp) (List.all_eq_true.mp (by decide))
  have hlf : 10 ∉ back := by
    rcases hb with rfl | rfl
    · decide
    · decide
  have hnil : token ++ digits ++ back ≠ [] := by simp [hne]
  -- some of the digits give a length, but no blank line follows
  apply readFrame_of_error
  rw [takeHeaders_lastLine false none _ hnil (lf_notMem_lengthLine digits back hd hlf), hline]

theorem readFrame_cut_line (digits : Bytes) (ha : Announces digits) :
    readFrame ((token ++ digits ++ [13] ++ [10]).map .byte) = (.error .endInHeaders, []) := by
  apply readFrame_of_error
  rw [List.map_append]
  change takeHeaders false none ((token ++ digits ++ [13]).map .byte ++ .byte 10 :: []) = _
  rw [takeHeaders_lengthLine false none digits [] ha]
  exact takeHeaders_of_end true _ rfl

theorem readFrame_cut_blank (digits : Bytes) (ha : Announces digits)
    (hmax : digitsValue digits ≤ bodyMax) :
    readFrame ((token ++ digits ++ [13] ++ [10] ++ [13]).map .byte) =
      (if digitsValue digits = 0 then .ok (some []) else .error .bodyCut, []) := by
  -- a blank line counts without its line feed, so only the body can be missing
  have hblank : HeaderLine.ofBytes [13] = .ok .blank := rfl
  have hheaders : takeHeaders false none ((token ++ digits ++ [13] ++ [10] ++ [13]).map .byte) =
      (.ok (some (digitsValue digits)), []) := by
    rw [List.append_assoc _ [10], List.map_append]
    change takeHeaders false none
      ((token ++ digits ++ [13]).map .byte ++ .byte 10 :: [13].map .byte) = _
    rw [takeHeaders_lengthLine false none digits _ ha,
      takeHeaders_lastLine true _ [13] (by decide) (by decide), hblank]
    rfl
  rw [readFrame, hheaders]
  cases hv : digitsValue digits with
  | zero => rfl
  | succ n =>
    rw [hv] at hmax
    simp [Nat.not_lt.mpr hmax, takeBody]

private theorem inside_or_behind {part front back : Bytes} (hp : part <+: front ++ back) :
    part <+: front ∨ ∃ more, more ≠ [] ∧ part = front ++ more ∧ more <+: back := by
  rcases List.prefix_or_prefix_of_prefix hp (List.prefix_append front back) with h | ⟨more, rfl⟩
  · exact .inl h
  · by_cases hm : more = []
    · subst hm
      rw [List.append_nil]
      exact .inl (List.prefix_refl front)
    · exact .inr ⟨more, hm, rfl, (List.prefix_append_right_inj front).mp hp⟩

theorem readFrame_cut_inside_digits (digits part : Bytes) (ha : Announces digits) (hne : part ≠ [])
    (hp : part <+: digits) :
    readFrame ((token ++ part).map .byte) = (.error .endInHeaders, []) := by
  have hd : ∀ d ∈ part, isDigit d = true := fun d hm => ha.isDigit d (hp.subset hm)
  have hvalue : digitsValue part ≤ digitsValue digits := by
    obtain ⟨rest, hrest⟩ := hp
    rw [← hrest]
    exact digitsValue_le_append part rest
  have hcount := ha.countable
  have hread := readFrame_cut_digits part [] hne hd (by omega) (.inl rfl)
  rwa [List.append_nil] at hread

theorem readFrame_cut_behind_digits (digits body part : Bytes) (ha : Announces digits)
    (hv : digitsValue digits = body.length) (hmax : body.length ≤ bodyMax)
    (hp : part <+: separator ++ body) (hcut : part ≠ separator ++ body) :
    (∃ e, readFrame ((token ++ digits ++ part).map .byte) = (.error e, [])) ∨
      body = [] ∧ part ++ [10] = separator := by
  have hcount := ha.countable
  -- the cut stands in front of a byte of the separator, or inside the body
  change part <+: 13 :: 10 :: 13 :: 10 :: body at hp
  rcases List.prefix_cons_iff.mp hp with rfl | ⟨afterReturn, rfl, hreturn⟩
  · exact .inl ⟨_, readFrame_cut_digits digits [] ha.ne_nil ha.isDigit (by omega) (.inl rfl)⟩
  rcases List.prefix_cons_iff.mp hreturn with rfl | ⟨afterLine, rfl, hline⟩
  · exact .inl ⟨_, readFrame_cut_digits digits [13] ha.ne_nil ha.isDigit (by omega) (.inr rfl)⟩
  rcases List.prefix_cons_iff.mp hline with rfl | ⟨afterBlank, rfl, hblank⟩
  · have hread := readFrame_cut_line digits ha
    rw [List.append_assoc _ [13]] at hread
    exact .inl ⟨_, hread⟩
  rcases List.prefix_cons_iff.mp hblank with rfl | ⟨payload, rfl, hpayload⟩
  · by_cases hbody : body = []
    · exact .inr ⟨hbody, rfl⟩
    · have hread := readFrame_cut_blank digits ha (by omega)
      have hpos : digitsValue digits ≠ 0 := by simpa [hv] using hbody
      rw [List.append_assoc _ [10], List.append_assoc _ [13], if_neg hpos] at hread
      exact .inl ⟨_, hread⟩
  · have hlt : payload.length < body.length := by
      apply Nat.lt_of_le_of_ne hpayload.length_le
      intro hlen
      rw [hpayload.eq_of_length hlen] at hcut
      contradiction
    have hread := readFrame_cut digits payload ha (by omega) (by omega)
    rw [spell, List.append_assoc _ separator] at hread
    exact .inl ⟨_, hread⟩

/-- Every place at which a frame can be cut. -/
theorem readFrame_of_cut (digits body part : Bytes) (ha : Announces digits)
    (hv : digitsValue digits = body.length) (hmax : body.length ≤ bodyMax) (hne : part ≠ [])
    (hp : part <+: spell digits ++ body) (hcut : part ≠ spell digits ++ body) :
    (∃ e, readFrame (part.map .byte) = (.error e, [])) ∨
      body = [] ∧ part ++ [10] = spell digits := by
  rw [spell, List.append_assoc, List.append_assoc] at hp hcut
  rcases inside_or_behind hp with htoken | ⟨tail, htail, rfl, hafter⟩
  · exact .inl ⟨_, readFrame_cut_token part hne htoken⟩
  rcases inside_or_behind hafter with hdigits | ⟨behind, _, rfl, hend⟩
  · exact .inl ⟨_, readFrame_cut_inside_digits digits tail ha htail hdigits⟩
  have hne : behind ≠ separator ++ body := by
    rintro rfl
    contradiction
  rw [← List.append_assoc]
  rcases readFrame_cut_behind_digits digits body behind ha hv hmax hend hne with
    herror | ⟨hbody, hlast⟩
  · exact .inl herror
  · refine .inr ⟨hbody, ?_⟩
    rw [List.append_assoc, hlast, spell]

theorem readFrame_hollow_cut (digits part : Bytes) (ha : Announces digits)
    (hv : digitsValue digits = 0) (hp : part ++ [10] = spell digits) :
    readFrame (part.map .byte) = (.ok (some []), []) := by
  have hpart : part = token ++ digits ++ [13] ++ [10] ++ [13] := by
    have hspell : spell digits = token ++ digits ++ [13] ++ [10] ++ [13] ++ [10] := by
      simp [spell, separator]
    rw [hspell] at hp
    exact List.append_cancel_right hp
  rw [hpart, readFrame_cut_blank digits ha (by omega), hv]
  rfl

namespace Buffered

/-- A frame that is cut off by the end of the stream is refused, wherever the cut is and however the
stream arrives, unless only the last line feed of a frame without a body is missing. That
one is read as an empty body. -/
theorem readFrame_of_cut_frame (body part : Bytes) (cuts : List Bytes) (hb : body.length ≤ bodyMax)
    (hne : part ≠ []) (hp : part <+: ((Outlet.new none false).writeFrame body).1.written)
    (hcut : part ≠ ((Outlet.new none false).writeFrame body).1.written)
    (hc : ∀ cut ∈ cuts, cut ≠ []) (hflat : cuts.flatten = part) :
    let read := (start (cuts.map .bytes)).readFrame.1
    let hollow := body = [] ∧ part ++ [10] = ((Outlet.new none false).writeFrame body).1.written
    (¬ hollow → ∃ e, read = .error e) ∧ (hollow → read = .ok (some [])) := by
  have hwritten : ((Outlet.new none false).writeFrame body).1.written =
      spell (decimal body.length) ++ body := by
    rw [Outlet.writeFrame_of_unlimited _ body Outlet.unlimited_new]
    rfl
  have hsignals : (start (cuts.map .bytes)).signals = part.map .byte := by
    rw [← hflat, ← signals_flatten cuts hc]
    rfl
  have hread := readFrame_signals (start (cuts.map .bytes))
  have hvalue := digitsValue_decimal body.length
  have ha := announces_body body hb
  intro read hollow
  change NoiseGate.readFrame _ = (read, _) at hread
  rw [hsignals] at hread
  rw [hwritten] at hp hcut
  constructor
  · intro hno
    rcases readFrame_of_cut _ body part ha hvalue hb hne hp hcut with ⟨e, he⟩ | ⟨hbody, hpart⟩
    · rw [he] at hread
      exact ⟨e, (Prod.mk.inj hread).1.symm⟩
    · refine absurd ⟨hbody, ?_⟩ hno
      rw [hwritten, hpart, hbody, List.append_nil]
  · rintro ⟨hbody, hpart⟩
    subst hbody
    rw [hwritten, List.append_nil] at hpart
    rw [readFrame_hollow_cut _ part ha hvalue hpart] at hread
    exact (Prod.mk.inj hread).1.symm

/-- A cut behind the first of two digits, and one that leaves only the last line feed out. -/
theorem readFrame_of_cut_frame_digits :
    let body := ascii "hello, world"
    let part := ascii "Content-Length: 1"
    let cuts := [part.take 9, part.drop 9]
    let hollow := ascii "Content-Length: 0\r\n\r"
    let written (body : Bytes) := ((Outlet.new none false).writeFrame body).1.written
    (part <+: written body ∧ part ≠ written body ∧ cuts.flatten = part ∧
      ∃ e, (start (cuts.map .bytes)).readFrame.1 = .error e) ∧
    hollow <+: written [] ∧ hollow ≠ written [] ∧
      (start [.bytes hollow]).readFrame.1 = .ok (some []) := by
  intro body part cuts hollow written
  have hpart : part <+: written body := by decide +kernel
  have hcut : part ≠ written body := by decide +kernel
  have hpart' : hollow <+: written [] := by decide +kernel
  have hcut' : hollow ≠ written [] := by decide +kernel
  have hlast : [] = ([] : Bytes) ∧ hollow ++ [10] = written [] := by decide +kernel
  have herror := readFrame_of_cut_frame body part cuts (by decide) (by decide) hpart hcut (by decide)
    (by decide)
  have hread := readFrame_of_cut_frame [] hollow [hollow] (by decide) (by decide) hpart' hcut'
    (by decide) (by decide)
  refine ⟨⟨hpart, hcut, by decide, herror.1 ?_⟩, hpart', hcut', hread.2 hlast⟩
  rintro ⟨hempty, _⟩
  contradiction

/-- Not every frame that is cut off is refused. -/
theorem hollow_cut_frame_is_read :
    ¬ ∀ body part : Bytes, body.length ≤ bodyMax → part ≠ [] →
      part <+: ((Outlet.new none false).writeFrame body).1.written →
      part ≠ ((Outlet.new none false).writeFrame body).1.written →
      ∃ e, (start [.bytes part]).readFrame.1 = .error e := by
  intro hall
  have hspelled : ascii "Content-Length: 0\r\n\r" ++ [10] = spell (decimal 0) := by decide +kernel
  obtain ⟨e, he⟩ := hall [] (ascii "Content-Length: 0\r\n\r") (by decide) (by decide)
    (by decide +kernel) (by decide +kernel)
  have hread := readFrame_signals (start [.bytes (ascii "Content-Length: 0\r\n\r")])
  change NoiseGate.readFrame ((ascii "Content-Length: 0\r\n\r").map .byte) = _ at hread
  rw [readFrame_hollow_cut _ _ (announces_body [] (by decide)) (digitsValue_decimal 0) hspelled, he]
    at hread
  cases hread

end Buffered

end NoiseGate

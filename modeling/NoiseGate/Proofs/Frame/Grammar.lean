import NoiseGate.Proofs.Frame.HeaderLines
import NoiseGate.Proofs.Frame.Truncation

/-!
# The grammar of frames

A frame is read exactly from a header block, a line of blanks and as many bytes as the last line
about the length says. What the block may hold is said here of texts, without the reader: `Lines`
follows the lines one by one with the length given so far, and `HeaderBlock` speaks of all of them.
-/

namespace NoiseGate

/-- A line with the line feed that ends it. -/
def IsLine (line : Bytes) : Prop := ∃ front, line = front ++ [10] ∧ 10 ∉ front

/-- Lines that are about other things than the length. -/
def GiveNone (lines : List Text) : Prop := ∀ line ∈ lines, ∀ value, ¬ GivesLength line value

/-- The last of the lines that are about the length gives `n`. -/
def LastGives (lines : List Text) (n : Nat) : Prop :=
  ∃ before line behind value, lines = before ++ line :: behind ∧ GivesLength line value ∧
    Counts value n ∧ GiveNone behind

/-- The lines in front of the blank one, and the length that the last line about it gives. -/
structure HeaderBlock (lines : List Text) (n : Nat) : Prop where
  ended : ∀ line ∈ lines, IsLine (Utf8.encode line)
  notBlank : ∀ line ∈ lines, trim line ≠ []
  counted : ∀ line ∈ lines, ∀ value, GivesLength line value → ∃ m, Counts value m
  last : LastGives lines n

/-- A line of blanks. The end of the stream ends it as well as a line feed does, but not before
it has begun. -/
structure BlankLine (blank : Text) (behind : Bytes) : Prop where
  isBlank : ∀ c ∈ blank, isBlank c = true
  ended : IsLine (Utf8.encode blank) ∨ blank ≠ [] ∧ 10 ∉ Utf8.encode blank ∧ behind = []

/-- A stream with a frame of this body in front. -/
def BeginsWithFrame (stream body rest : Bytes) : Prop :=
  ∃ lines blank, stream = lines.flatMap Utf8.encode ++ Utf8.encode blank ++ body ++ rest ∧
    HeaderBlock lines body.length ∧ BlankLine blank (body ++ rest) ∧ body.length ≤ bodyMax

/-- The lines to come when the ones before gave `length`. -/
inductive Lines : Option Nat → List Text → Nat → Prop
  | done (n : Nat) : Lines (some n) [] n
  | length (given : Option Nat) (line value : Text) (lines : List Text) (m n : Nat)
      (hl : IsLine (Utf8.encode line)) (hv : GivesLength line value) (hm : Counts value m)
      (rest : Lines (some m) lines n) : Lines given (line :: lines) n
  | other (given : Option Nat) (line : Text) (lines : List Text) (n : Nat)
      (hl : IsLine (Utf8.encode line)) (hb : trim line ≠ [])
      (hv : ∀ value, ¬ GivesLength line value) (rest : Lines given lines n) :
      Lines given (line :: lines) n

namespace Lines

variable {given : Option Nat} {lines : List Text} {n : Nat}

theorem ended (h : Lines given lines n) : ∀ line ∈ lines, IsLine (Utf8.encode line) := by
  induction h with
  | done n => simp
  | length given line value lines m n hl hv hm rest ih => exact List.forall_mem_cons.mpr ⟨hl, ih⟩
  | other given line lines n hl hb hv rest ih => exact List.forall_mem_cons.mpr ⟨hl, ih⟩

theorem notBlank (h : Lines given lines n) : ∀ line ∈ lines, trim line ≠ [] := by
  induction h with
  | done n => simp
  | length given line value lines m n hl hv hm rest ih =>
    exact List.forall_mem_cons.mpr ⟨HeaderLine.trim_ne_nil_of_givesLength hv, ih⟩
  | other given line lines n hl hb hv rest ih => exact List.forall_mem_cons.mpr ⟨hb, ih⟩

theorem givesLength_unique {line value other : Text} (h : GivesLength line value)
    (h' : GivesLength line other) : value = other := by
  have hvalue := (lengthField?_eq_some_iff line value).mpr h
  rw [(lengthField?_eq_some_iff line other).mpr h'] at hvalue
  exact (Option.some.inj hvalue).symm

theorem counted (h : Lines given lines n) :
    ∀ line ∈ lines, ∀ value, GivesLength line value → ∃ m, Counts value m := by
  induction h with
  | done n => simp
  | length given line value lines m n hl hv hm rest ih =>
    refine List.forall_mem_cons.mpr ⟨?_, ih⟩
    intro other hother
    rw [← givesLength_unique hv hother]
    exact ⟨m, hm⟩
  | other given line lines n hl hb hv rest ih =>
    refine List.forall_mem_cons.mpr ⟨?_, ih⟩
    intro value hvalue
    exact absurd hvalue (hv value)

theorem last (h : Lines given lines n) : LastGives lines n ∨ given = some n ∧ GiveNone lines := by
  induction h with
  | done n => exact .inr ⟨rfl, nofun⟩
  | length given line value lines m n hl hv hm rest ih =>
    left
    rcases ih with ⟨before, last, behind, v, rfl, hlast⟩ | ⟨hgiven, hnone⟩
    · exact ⟨line :: before, last, behind, v, rfl, hlast⟩
    · cases hgiven
      exact ⟨[], line, lines, value, rfl, hv, hm, hnone⟩
  | other given line lines n hl hb hv rest ih =>
    rcases ih with ⟨before, last, behind, v, rfl, hlast⟩ | ⟨hgiven, hnone⟩
    · exact .inl ⟨line :: before, last, behind, v, rfl, hlast⟩
    · exact .inr ⟨hgiven, List.forall_mem_cons.mpr ⟨hv, hnone⟩⟩

theorem of_last (given : Option Nat) (lines : List Text) (n : Nat)
    (ended : ∀ line ∈ lines, IsLine (Utf8.encode line)) (notBlank : ∀ line ∈ lines, trim line ≠ [])
    (counted : ∀ line ∈ lines, ∀ value, GivesLength line value → ∃ m, Counts value m)
    (last : LastGives lines n ∨ given = some n ∧ GiveNone lines) : Lines given lines n := by
  induction lines generalizing given with
  | nil =>
    rcases last with ⟨before, line, behind, value, h, -⟩ | ⟨rfl, -⟩
    · simp at h
    · exact .done n
  | cons line lines ih =>
    obtain ⟨hl, hended⟩ := List.forall_mem_cons.mp ended
    obtain ⟨hb, hblank⟩ := List.forall_mem_cons.mp notBlank
    obtain ⟨hc, hcounted⟩ := List.forall_mem_cons.mp counted
    have hrest := fun given => ih given hended hblank hcounted
    rcases last with ⟨before, last, behind, v, hsplit, hgives, hcounts, hnone⟩ | ⟨hgiven, hnone⟩
    · cases before with
      | nil =>
        obtain ⟨rfl, rfl⟩ := List.cons.inj hsplit
        exact .length given line v lines n n hl hgives hcounts (hrest _ (.inr ⟨rfl, hnone⟩))
      | cons first before =>
        obtain ⟨rfl, rfl⟩ := List.cons.inj hsplit
        have hlast := fun given =>
          hrest given (.inl ⟨before, last, behind, v, rfl, hgives, hcounts, hnone⟩)
        by_cases habout : ∃ value, GivesLength line value
        · obtain ⟨value, hvalue⟩ := habout
          obtain ⟨m, hm⟩ := hc value hvalue
          exact .length given line value _ m n hl hvalue hm (hlast _)
        · exact .other given line _ n hl hb (fun value hv => habout ⟨value, hv⟩) (hlast _)
    · obtain ⟨hfirst, hnone⟩ := List.forall_mem_cons.mp hnone
      exact .other given line lines n hl hb hfirst (hrest _ (.inr ⟨hgiven, hnone⟩))

end Lines

theorem lines_none_iff (lines : List Text) (n : Nat) :
    Lines none lines n ↔ HeaderBlock lines n := by
  constructor
  · intro h
    refine ⟨h.ended, h.notBlank, h.counted, ?_⟩
    rcases h.last with hlast | ⟨hgiven, -⟩
    · exact hlast
    · cases hgiven
  · intro h
    exact .of_last none lines n h.ended h.notBlank h.counted (.inl h.last)

theorem takeHeaders_endedLine (started : Bool) (length : Option Nat) (line rest : Bytes)
    (hl : IsLine line) : takeHeaders started length ((line ++ rest).map .byte) =
      match HeaderLine.ofBytes line with
      | .error e => (.error e, rest.map .byte)
      | .ok .blank => (length.elim (.error .noLength) (.ok ∘ some), rest.map .byte)
      | .ok (.length n) => takeHeaders true (some n) (rest.map .byte)
      | .ok .other => takeHeaders true length (rest.map .byte) := by
  obtain ⟨front, rfl, hfront⟩ := hl
  have hmap : (front ++ [10] ++ rest).map Signal.byte =
      front.map .byte ++ .byte 10 :: rest.map .byte := by simp
  have hline := takeLine_line [] front (rest.map .byte) hfront
  rw [List.reverse_nil, List.nil_append] at hline
  obtain ⟨c, more, hcons⟩ := List.exists_cons_of_ne_nil (List.append_ne_nil_of_right_ne_nil front
    (List.cons_ne_nil (10 : UInt8) []))
  rw [hmap, hcons]
  rw [hcons] at hline
  exact takeHeaders_of_line started length hline

theorem flatMap_encode_cons (line : Text) (lines : List Text) (blank rest : Bytes) :
    (line :: lines).flatMap Utf8.encode ++ blank ++ rest =
      Utf8.encode line ++ (lines.flatMap Utf8.encode ++ blank ++ rest) := by
  rw [List.flatMap_cons, List.append_assoc, List.append_assoc, ← List.append_assoc _ blank]

/-- What the header lines of a block say is what the reader makes of them. -/
theorem takeHeaders_of_lines (started : Bool) (given : Option Nat) (lines : List Text) (n : Nat)
    (blank : Text) (rest : Bytes) (hlines : Lines given lines n) (hblank : BlankLine blank rest) :
    takeHeaders started given
      ((lines.flatMap Utf8.encode ++ Utf8.encode blank ++ rest).map .byte) =
      (.ok (some n), rest.map .byte) := by
  induction hlines generalizing started with
  | done n =>
    have hmeans : HeaderLine.ofBytes (Utf8.encode blank) = .ok .blank :=
      (HeaderLine.ofBytes_eq_ok_iff _ _).mpr ⟨blank, rfl, .blank hblank.isBlank⟩
    rw [List.flatMap_nil, List.nil_append]
    rcases hblank.ended with hl | ⟨hne, hl, rfl⟩
    · rw [takeHeaders_endedLine started _ _ rest hl, hmeans]
      rfl
    · have hbytes : Utf8.encode blank ≠ [] := by
        intro h
        exact hne (Utf8.encode_injective h)
      rw [List.append_nil, takeHeaders_lastLine started _ _ hbytes hl, hmeans]
      rfl
  | length given line value lines m n hl hv hm rest' ih =>
    have hmeans : HeaderLine.ofBytes (Utf8.encode line) = .ok (.length m) :=
      (HeaderLine.ofBytes_eq_ok_iff _ _).mpr ⟨line, rfl, .length value m hv hm⟩
    rw [flatMap_encode_cons, takeHeaders_endedLine started given _ _ hl, hmeans]
    exact ih true
  | other given line lines n hl hb hv rest' ih =>
    have hmeans : HeaderLine.ofBytes (Utf8.encode line) = .ok .other :=
      (HeaderLine.ofBytes_eq_ok_iff _ _).mpr ⟨line, rfl, .other hb hv⟩
    rw [flatMap_encode_cons, takeHeaders_endedLine started given _ _ hl, hmeans]
    exact ih true

theorem line_cases (stream : Bytes) :
    stream = [] ∨ (∃ line rest, stream = line ++ rest ∧ IsLine line) ∨
      stream ≠ [] ∧ 10 ∉ stream := by
  by_cases hfeed : 10 ∈ stream
  · obtain ⟨front, rest, hstream, hfront⟩ := List.eq_append_cons_of_mem hfeed
    refine .inr (.inl ⟨front ++ [10], rest, ?_, front, rfl, hfront⟩)
    rw [hstream, List.append_assoc, List.singleton_append]
  · by_cases hnil : stream = []
    · exact .inl hnil
    · exact .inr (.inr ⟨hnil, hfeed⟩)

theorem IsLine.length_pos {line : Bytes} (h : IsLine line) : 0 < line.length := by
  obtain ⟨front, rfl, -⟩ := h
  simp

/-- Whatever the reader takes for a header block is one. -/
theorem lines_of_takeHeaders (started : Bool) (given : Option Nat) (stream : Bytes) (n : Nat)
    (left : List Signal)
    (h : takeHeaders started given (stream.map .byte) = (.ok (some n), left)) :
    ∃ lines blank rest, stream = lines.flatMap Utf8.encode ++ Utf8.encode blank ++ rest ∧
      left = rest.map .byte ∧ Lines given lines n ∧ BlankLine blank rest := by
  induction hlen : stream.length using Nat.strongRecOn generalizing started given stream with
  | ind size ih =>
    rcases line_cases stream with rfl | ⟨line, rest, rfl, hl⟩ | ⟨hne, hl⟩
    · rw [List.map_nil, takeHeaders_of_end started given rfl] at h
      cases started <;> cases h
    · have hpos := hl.length_pos
      have hlt : rest.length < size := by
        rw [← hlen, List.length_append]
        omega
      rw [takeHeaders_endedLine started given line rest hl] at h
      cases hmeans : HeaderLine.ofBytes line with
      | error e =>
        rw [hmeans] at h
        cases h
      | ok meaning =>
        obtain ⟨text, rfl, hmeaning⟩ := (HeaderLine.ofBytes_eq_ok_iff line meaning).mp hmeans
        rw [hmeans] at h
        cases hmeaning with
        | blank hb =>
          cases given with
          | none => cases h
          | some m =>
            cases h
            exact ⟨[], text, rest, rfl, rfl, .done n, hb, .inl hl⟩
        | length value m hv hm =>
          obtain ⟨lines, blank, behind, rfl, hleft, hlines, hblank⟩ := ih _ hlt true _ rest h rfl
          have hsplit := flatMap_encode_cons text lines (Utf8.encode blank) behind
          exact ⟨text :: lines, blank, behind, hsplit.symm, hleft,
            .length given text value lines m n hl hv hm hlines, hblank⟩
        | other hb hv =>
          obtain ⟨lines, blank, behind, rfl, hleft, hlines, hblank⟩ := ih _ hlt true _ rest h rfl
          have hsplit := flatMap_encode_cons text lines (Utf8.encode blank) behind
          exact ⟨text :: lines, blank, behind, hsplit.symm, hleft,
            .other given text lines n hl hb hv hlines, hblank⟩
    · rw [takeHeaders_lastLine started given stream hne hl] at h
      cases hmeans : HeaderLine.ofBytes stream with
      | error e =>
        rw [hmeans] at h
        cases h
      | ok meaning =>
        obtain ⟨text, rfl, hmeaning⟩ := (HeaderLine.ofBytes_eq_ok_iff stream meaning).mp hmeans
        rw [hmeans] at h
        cases hmeaning with
        | blank hb =>
          cases given with
          | none => cases h
          | some m =>
            cases h
            refine ⟨[], text, [], by simp, rfl, .done n, hb, .inr ⟨?_, hl, rfl⟩⟩
            rintro rfl
            contradiction
        | length value m hv hm => cases h
        | other hb hv => cases h

theorem takeBody_eq (n : Nat) (data : Bytes) :
    takeBody [] n (data.map .byte) =
      if n ≤ data.length then (.ok (data.take n), (data.drop n).map .byte)
      else (.error .bodyCut, []) := by
  by_cases hle : n ≤ data.length
  · have hlen : (data.take n).length = n := List.length_take_of_le hle
    have hpayload := takeBody_payload [] (data.take n) ((data.drop n).map .byte)
    rw [hlen, ← List.map_append, List.take_append_drop] at hpayload
    rw [if_pos hle]
    exact hpayload
  · rw [if_neg hle]
    exact takeBody_cut [] data n (Nat.lt_of_not_le hle)

theorem readFrame_of_headers (stream : List Signal) (n : Nat) (data : Bytes)
    (h : takeHeaders false none stream = (.ok (some n), data.map .byte)) :
    readFrame stream =
      if n ≤ bodyMax ∧ n ≤ data.length then
        (.ok (some (data.take n)), (data.drop n).map .byte)
      else if n ≤ bodyMax then (.error .bodyCut, [])
      else (.error (.tooLong n), data.map .byte) := by
  rw [readFrame, h]
  dsimp only
  by_cases hmax : n ≤ bodyMax
  · rw [if_neg (Nat.not_lt.mpr hmax), takeBody_eq]
    by_cases hle : n ≤ data.length
    · rw [if_pos hle, if_pos ⟨hmax, hle⟩]
    · rw [if_neg hle, if_neg (fun hall => hle hall.2), if_pos hmax]
  · rw [if_pos (Nat.lt_of_not_le hmax), if_neg (fun hall => hmax hall.1), if_neg hmax]

theorem readFrame_of_beginsWithFrame (stream body rest : Bytes)
    (h : BeginsWithFrame stream body rest) :
    readFrame (stream.map .byte) = (.ok (some body), rest.map .byte) := by
  obtain ⟨lines, blank, rfl, hblock, hblank, hmax⟩ := h
  have hheaders := takeHeaders_of_lines false none lines body.length blank (body ++ rest)
    ((lines_none_iff lines _).mpr hblock) hblank
  rw [← List.append_assoc] at hheaders
  have hlen : body.length ≤ (body ++ rest).length := by simp
  rw [readFrame_of_headers _ _ _ hheaders, if_pos ⟨hmax, hlen⟩, List.take_left, List.drop_left]

theorem beginsWithFrame_of_readFrame (stream body : Bytes) (left : List Signal)
    (h : readFrame (stream.map .byte) = (.ok (some body), left)) :
    ∃ rest, left = rest.map .byte ∧ BeginsWithFrame stream body rest := by
  cases hheaders : takeHeaders false none (stream.map .byte) with
  | mk result behind =>
    match result with
    | .error e =>
      rw [readFrame, hheaders] at h
      cases h
    | .ok none =>
      rw [readFrame, hheaders] at h
      cases h
    | .ok (some n) =>
      obtain ⟨lines, blank, data, hstream, rfl, hlines, hblank⟩ :=
        lines_of_takeHeaders false none stream n behind hheaders
      rw [readFrame_of_headers _ _ _ hheaders] at h
      by_cases hfits : n ≤ bodyMax ∧ n ≤ data.length
      · rw [if_pos hfits] at h
        cases h
        have hlen : (data.take n).length = n := List.length_take_of_le hfits.2
        refine ⟨data.drop n, rfl, lines, blank, ?_, ?_, ?_, ?_⟩
        · rw [List.append_assoc, List.take_append_drop, hstream]
        · rw [hlen]
          exact (lines_none_iff lines n).mp hlines
        · rw [List.take_append_drop]
          exact hblank
        · rw [hlen]
          exact hfits.1
      · rw [if_neg hfits] at h
        by_cases hmax : n ≤ bodyMax
        · rw [if_pos hmax] at h
          cases h
        · rw [if_neg hmax] at h
          cases h

theorem takeHeaders_of_none (started : Bool) (given : Option Nat) (stream : List Signal)
    (h : (takeHeaders started given stream).1 = .ok none) :
    started = false ∧ (takeLine [] stream).1 = .ok [] := by
  fun_induction takeHeaders started given stream with
  | case2 started given stream rest hline =>
    rw [hline]
    cases started with
    | false => exact ⟨rfl, rfl⟩
    | true => cases h
  | case6 started given stream b line rest hline text hdecode trimmed hb n hword ih =>
    cases (ih h).1
  | case8 started given stream b line rest hline text hdecode trimmed hb hword ih =>
    cases (ih h).1
  | _ => cases h

theorem takeHeaders_of_readFrame_none (stream : List Signal) (h : (readFrame stream).1 = .ok none) :
    (takeHeaders false none stream).1 = .ok none := by
  unfold readFrame at h
  split at h
  · cases h
  · rename_i hheaders
    rw [hheaders]
  · split at h
    · cases h
    · split at h <;> cases h

theorem eq_nil_of_takeLine (stream : Bytes) (h : (takeLine [] (stream.map .byte)).1 = .ok []) :
    stream = [] := by
  rcases line_cases stream with hnil | ⟨line, rest, rfl, front, rfl, hfront⟩ | ⟨hne, hfeed⟩
  · exact hnil
  · have hline := takeLine_line [] front (rest.map .byte) hfront
    simp [hline] at h
  · have hbytes := takeLine_bytes [] stream [] hfeed
    rw [List.append_nil, List.append_nil, takeLine, List.reverse_reverse] at hbytes
    rw [hbytes] at h
    exact Except.ok.inj h

theorem readFrame_eq_end_iff (stream : Bytes) :
    (readFrame (stream.map .byte)).1 = .ok none ↔ stream = [] := by
  constructor
  · intro h
    have hheaders := takeHeaders_of_readFrame_none _ h
    exact eq_nil_of_takeLine stream (takeHeaders_of_none false none _ hheaders).2
  · rintro rfl
    rw [List.map_nil, readFrame_nil]

theorem map_byte_injective {a b : Bytes} (h : a.map Signal.byte = b.map Signal.byte) : a = b :=
  (List.map_inj_right fun _ _ => Signal.byte.inj).mp h

namespace Buffered

/-- A frame is read exactly where the grammar has one, and leaves the rest of the stream. Only an
empty stream is at its end, and everything else is an error, however the stream arrives. -/
theorem readFrame_accepts_grammar (cuts : List Bytes) (hc : ∀ cut ∈ cuts, cut ≠ []) :
    let stream := cuts.flatten
    let (result, later) := (start (cuts.map .bytes)).readFrame
    (result = .ok none ↔ stream = []) ∧
    (∀ body rest, result = .ok (some body) ∧ later.signals = rest.map .byte ↔
      BeginsWithFrame stream body rest) ∧
    ((∃ e, result = .error e) ↔ stream ≠ [] ∧ ∀ body rest, ¬ BeginsWithFrame stream body rest) := by
  intro stream
  have hread := readFrame_signals (start (cuts.map .bytes))
  have hsignals : (start (cuts.map .bytes)).signals = stream.map .byte := (signals_flatten cuts hc)
  rw [hsignals] at hread
  cases hresult : (start (cuts.map .bytes)).readFrame with
  | mk result later =>
    rw [hresult] at hread
    have hfirst : (NoiseGate.readFrame (stream.map .byte)).1 = result := by rw [hread]
    have hbody (body rest : Bytes) : result = .ok (some body) ∧ later.signals = rest.map .byte ↔
        BeginsWithFrame stream body rest := by
      constructor
      · rintro ⟨rfl, hleft⟩
        obtain ⟨other, hother, hframe⟩ := beginsWithFrame_of_readFrame stream body _ hread
        rwa [map_byte_injective (hleft.symm.trans hother)]
      · intro h
        rw [readFrame_of_beginsWithFrame stream body rest h] at hread
        obtain ⟨hbody, hleft⟩ := Prod.mk.inj hread
        exact ⟨hbody.symm, hleft.symm⟩
    have hend : result = .ok none ↔ stream = [] := by
      rw [← hfirst]
      exact readFrame_eq_end_iff stream
    refine ⟨hend, hbody, ?_⟩
    constructor
    · rintro ⟨e, rfl⟩
      refine ⟨?_, ?_⟩
      · intro hnil
        cases hend.mpr hnil
      · intro body rest h
        cases ((hbody body rest).mpr h).1
    · rintro ⟨hne, hnone⟩
      match result with
      | .error e => exact ⟨e, rfl⟩
      | .ok none => exact absurd (hend.mp rfl) hne
      | .ok (some body) =>
        obtain ⟨rest, -, h⟩ := beginsWithFrame_of_readFrame stream body _ hread
        exact absurd h (hnone body rest)

/-- A line about nothing, a length with a sign and a leading zero and its name in capitals, cut in
front of the value, and a blank line without a carriage return. -/
theorem readFrame_accepts_grammar_signed :
    let cuts := [ascii "x\ncontent-LENGTH:", ascii "+03\r\n \nab", ascii "cde"]
    (∀ cut ∈ cuts, cut ≠ []) ∧ BeginsWithFrame cuts.flatten (ascii "abc") (ascii "de") ∧
      (start (cuts.map .bytes)).readFrame.1 = .ok (some (ascii "abc")) ∧
      (start (cuts.map .bytes)).readFrame.2.signals = (ascii "de").map .byte := by
  intro cuts
  have hne : ∀ cut ∈ cuts, cut ≠ [] := by decide
  have hlines : Lines none ["x\n".toList, "content-LENGTH:+03\r\n".toList] 3 := by
    have hother (value : Text) : ¬ GivesLength "x\n".toList value := by
      have hnone : lengthField? (trim "x\n".toList) = none := by decide
      intro h
      rw [← lengthField?_eq_some_iff, hnone] at h
      cases h
    have hgives : GivesLength "content-LENGTH:+03\r\n".toList "+03".toList :=
      (lengthField?_eq_some_iff _ _).mp (by decide)
    have hcounts : Counts "+03".toList 3 := (readWord_eq_ok_iff _ 3).mp rfl
    apply Lines.other none _ _ 3 ⟨[120], by decide, by decide⟩ (by decide) hother
    apply Lines.length none _ _ _ 3 3 ⟨ascii "content-LENGTH:+03\r", by decide, by decide⟩ hgives
      hcounts
    exact .done 3
  have hframe : BeginsWithFrame cuts.flatten (ascii "abc") (ascii "de") := by
    refine ⟨_, " \n".toList, by decide, (lines_none_iff _ _).mp hlines, ⟨?_, .inl ?_⟩, by decide⟩
    · exact List.all_eq_true.mp (by decide)
    · exact ⟨[32], by decide, by decide⟩
  obtain ⟨-, hread, -⟩ := readFrame_accepts_grammar cuts hne
  exact ⟨hne, hframe, (hread _ _).mpr hframe⟩

end Buffered

end NoiseGate

import NoiseGate.Frame.Reader
import NoiseGate.Proofs.Frame.Spelling
import NoiseGate.Proofs.Text.Plain

/-!
# Reading what is spelled

The strict reader takes lines, decodes and trims them, and looks for a colon. Here it is given the
spelling of a header, which is one line about the length and one blank line, and reads the length
off it. So it reads a frame as the frame's payload, and a frame that is cut off as an error.
-/

namespace NoiseGate

open Header

theorem takeLine_line (gathered line : Bytes) (rest : List Signal) (hl : 10 ∉ line) :
    takeLine gathered (line.map .byte ++ .byte 10 :: rest) =
      (.ok (gathered.reverse ++ line ++ [10]), rest) := by
  induction line generalizing gathered with
  | nil => simp [takeLine]
  | cons b line ih =>
    have hb : b ≠ 10 := fun h => hl (h ▸ List.mem_cons_self)
    have hrest : 10 ∉ line := fun h => hl (List.mem_cons_of_mem b h)
    rw [List.map_cons, List.cons_append, takeLine, if_neg hb, ih _ hrest]
    simp

theorem takeHeaders_line (started : Bool) (length : Option Nat) (line : Bytes) (text : Text)
    (rest : List Signal) (hl : 10 ∉ line) (hd : Utf8.decode? (line ++ [10]) = some text) :
    takeHeaders started length (line.map .byte ++ .byte 10 :: rest) =
      if (trim text).isEmpty then
        match length with
        | some n => (.ok (some n), rest)
        | none => (.error .noLength, rest)
      else
        match (lengthField? (trim text)).map readWord with
        | some (.ok n) => takeHeaders true (some n) rest
        | some (.error fault) => (.error (.badLength fault), rest)
        | none => takeHeaders true length rest := by
  have hline := takeLine_line [] line rest hl
  rw [takeHeaders]
  split
  · rename_i h
    rw [hline] at h
    simp at h
  · rename_i h
    rw [hline] at h
    simp at h
  · rename_i h
    rw [hline] at h
    simp only [List.reverse_nil, List.nil_append, Prod.mk.injEq, Except.ok.injEq] at h
    obtain ⟨h, rfl⟩ := h
    rewrite [← h, hd]
    rfl

theorem takeHeaders_blank (started : Bool) (n : Nat) (rest : List Signal) :
    takeHeaders started (some n) (.byte 13 :: .byte 10 :: rest) = (.ok (some n), rest) :=
  takeHeaders_line started (some n) [13] ['\r', '\n'] rest (by decide) (by decide)

private theorem plainText_token :
    plainText token = "Content-Length".toList ++ ':' :: [' '] := by decide

private theorem getLast_spelled (front digits : Bytes) (hne : digits ≠ [])
    (hd : ∀ d ∈ digits, isDigit d = true) (c : Char)
    (hc : (plainText (front ++ digits)).getLast? = some c) : isBlank c = false := by
  obtain ⟨more, d, rfl⟩ := (List.eq_nil_or_concat digits).resolve_left hne
  have hlast : plainText (front ++ more.concat d) =
      plainText (front ++ more) ++ [Char.ofNat d.toNat] := by
    simp [plainText]
  rw [hlast, List.getLast?_concat, Option.some.injEq] at hc
  rw [← hc]
  exact isBlank_digit d (hd d (by simp))

theorem lengthField?_spelled (digits : Bytes) (hne : digits ≠ [])
    (hd : ∀ d ∈ digits, isDigit d = true) :
    lengthField? (plainText (token ++ digits)) = some (plainText digits) := by
  have hkey : ∀ c ∈ "Content-Length".toList, decide (c ≠ ':') = true :=
    List.all_eq_true.mp (by decide)
  have htext : plainText (token ++ digits) =
      "Content-Length".toList ++ ':' :: ' ' :: plainText digits := by
    rw [plainText_append, plainText_token, List.append_assoc]
    rfl
  have htake : (plainText (token ++ digits)).takeWhile (· ≠ ':') = "Content-Length".toList := by
    rw [htext, List.takeWhile_append_of_pos hkey, List.takeWhile_cons_of_neg (by decide),
      List.append_nil]
  have hdrop : (plainText (token ++ digits)).drop ("Content-Length".toList.length + 1) =
      ' ' :: plainText digits := by
    rw [htext]
    rfl
  have hname : "Content-Length".toList.map Char.toLower = "content-length".toList := by decide
  have hlt : "Content-Length".toList.length < (plainText (token ++ digits)).length := by
    rw [htext, List.length_append, List.length_cons]
    omega
  have hhead : ∀ c, (plainText digits).head? = some c → isBlank c = false := by
    intro c hc
    obtain ⟨d, hmem, rfl⟩ := List.mem_map.mp (List.mem_of_head? hc)
    exact isBlank_digit d (hd d hmem)
  -- the blank in front of the digits is trimmed
  have hvalue : trim (' ' :: plainText digits) = plainText digits := by
    have ht := trim_blanks [' '] (plainText digits) [] (by simpa [plainText] using hne)
      (List.all_eq_true.mp (by decide)) (by simp) hhead (getLast_spelled [] digits hne hd)
    rwa [List.append_nil] at ht
  simp only [lengthField?, htake, hname, hlt, hdrop, hvalue, decide_true, Bool.and_self, if_true]

theorem trim_lengthLine (digits back : Bytes) (hne : digits ≠ [])
    (hd : ∀ d ∈ digits, isDigit d = true) (hb : ∀ c ∈ plainText back, isBlank c = true) :
    trim (plainText (token ++ digits ++ back)) = plainText (token ++ digits) := by
  have htext : plainText (token ++ digits) ≠ [] := by simp [plainText, hne]
  have hhead : ∀ c, (plainText (token ++ digits)).head? = some c → isBlank c = false := by
    intro c hc
    rw [plainText_append, plainText_token] at hc
    cases hc
    decide
  rw [plainText_append]
  exact trim_blanks [] _ _ htext (by simp) hb hhead (getLast_spelled token digits hne hd)

theorem lengthLine_lt_ascii (digits back : Bytes) (hd : ∀ d ∈ digits, isDigit d = true)
    (hb : ∀ b ∈ back, b < 0x80) : ∀ b ∈ token ++ digits ++ back, b < 0x80 := by
  have htoken : ∀ b ∈ token, decide (b < 0x80) = true := List.all_eq_true.mp (by decide)
  intro b hmem
  simp only [List.mem_append] at hmem
  rcases hmem with (hmem | hmem) | hmem
  · exact of_decide_eq_true (htoken b hmem)
  · exact isDigit_lt_ascii b (hd b hmem)
  · exact hb b hmem

theorem lf_notMem_lengthLine (digits back : Bytes) (hd : ∀ d ∈ digits, isDigit d = true)
    (hb : 10 ∉ back) : 10 ∉ token ++ digits ++ back := by
  have htoken : 10 ∉ token := by decide
  have hdigits : 10 ∉ digits := by
    intro h
    have := hd 10 h
    contradiction
  simp only [List.mem_append, not_or]
  exact ⟨⟨htoken, hdigits⟩, hb⟩

theorem takeHeaders_lengthLine (started : Bool) (length : Option Nat) (digits : Bytes)
    (rest : List Signal) (ha : Announces digits) :
    takeHeaders started length ((token ++ digits ++ [13]).map .byte ++ .byte 10 :: rest) =
      takeHeaders true (some (digitsValue digits)) rest := by
  have hascii := lengthLine_lt_ascii digits [13, 10] ha.isDigit (by simp)
  have hdecode := Utf8.decode?_ascii _ hascii
  have htrim := trim_lengthLine digits [13, 10] ha.ne_nil ha.isDigit
    (List.all_eq_true.mp (by decide))
  have hend : token ++ digits ++ [13] ++ [10] = token ++ digits ++ [13, 10] :=
    List.append_assoc _ _ _
  have hline := lf_notMem_lengthLine digits [13] ha.isDigit (by decide)
  have hempty : (plainText (token ++ digits)).isEmpty = false :=
    List.isEmpty_eq_false_iff.mpr (by simp [plainText, ha.ne_nil])
  have hvalue : digitsValue digits ≤ wordMax := by
    have := ha.countable
    omega
  rw [← hend] at hdecode htrim
  rw [takeHeaders_line started length _ _ rest hline hdecode, htrim, hempty,
    lengthField?_spelled digits ha.ne_nil ha.isDigit, Option.map_some,
    readWord_plainText digits ha.ne_nil ha.isDigit hvalue]
  rfl

theorem takeHeaders_spell (digits : Bytes) (rest : List Signal) (ha : Announces digits) :
    takeHeaders false none ((spell digits).map .byte ++ rest) =
      (.ok (some (digitsValue digits)), rest) := by
  have hlines : (spell digits).map Signal.byte ++ rest =
      (token ++ digits ++ [13]).map .byte ++ .byte 10 :: .byte 13 :: .byte 10 :: rest := by
    simp [spell, separator]
  rw [hlines, takeHeaders_lengthLine false none digits _ ha, takeHeaders_blank]

theorem takeBody_payload (gathered payload : Bytes) (rest : List Signal) :
    takeBody gathered payload.length (payload.map .byte ++ rest) =
      (.ok (gathered.reverse ++ payload), rest) := by
  induction payload generalizing gathered with
  | nil => simp [takeBody]
  | cons b payload ih =>
    rw [List.length_cons, List.map_cons, List.cons_append, takeBody, ih]
    simp

theorem takeBody_cut (gathered payload : Bytes) (n : Nat) (hn : payload.length < n) :
    takeBody gathered n (payload.map .byte) = (.error .bodyCut, []) := by
  induction payload generalizing gathered n with
  | nil =>
    obtain ⟨m, rfl⟩ := Nat.exists_eq_add_one.mpr hn
    rfl
  | cons b payload ih =>
    rw [List.length_cons] at hn
    obtain ⟨m, rfl⟩ := Nat.exists_eq_add_one.mpr (Nat.zero_lt_of_lt hn)
    rw [List.map_cons, takeBody]
    exact ih _ m (Nat.lt_of_succ_lt_succ hn)

@[simp] theorem readFrame_nil : readFrame [] = (.ok none, []) := by
  simp [readFrame, takeHeaders, takeLine]

theorem readFrame_frame (digits payload : Bytes) (rest : List Signal) (ha : Announces digits)
    (hp : payload.length = digitsValue digits) (hmax : digitsValue digits ≤ bodyMax) :
    readFrame ((spell digits ++ payload).map .byte ++ rest) = (.ok (some payload), rest) := by
  have hbody := takeBody_payload [] payload rest
  rw [hp] at hbody
  rw [List.map_append, List.append_assoc, readFrame, takeHeaders_spell digits _ ha]
  simp [Nat.not_lt.mpr hmax, hbody]

theorem readFrame_cut (digits payload : Bytes) (ha : Announces digits)
    (hp : payload.length < digitsValue digits) (hmax : digitsValue digits ≤ bodyMax) :
    readFrame ((spell digits ++ payload).map .byte) = (.error .bodyCut, []) := by
  rw [List.map_append, readFrame, takeHeaders_spell digits _ ha]
  simp [Nat.not_lt.mpr hmax, takeBody_cut [] payload _ hp]

theorem readFrames_nil (keepGoing : Bool) (limit : Nat) :
    readFrames keepGoing (limit + 1) [] = [.ok none] := by
  rw [readFrames, readFrame_nil]

theorem readFrames_frame (keepGoing : Bool) (limit : Nat) (digits payload : Bytes)
    (rest : List Signal) (ha : Announces digits) (hp : payload.length = digitsValue digits)
    (hmax : digitsValue digits ≤ bodyMax) :
    readFrames keepGoing (limit + 1) ((spell digits ++ payload).map .byte ++ rest) =
      .ok (some payload) :: readFrames keepGoing limit rest := by
  rw [readFrames, readFrame_frame digits payload rest ha hp hmax]

theorem readFrames_cut (limit : Nat) (digits payload : Bytes) (ha : Announces digits)
    (hp : payload.length < digitsValue digits) (hmax : digitsValue digits ≤ bodyMax) :
    readFrames false (limit + 1) ((spell digits ++ payload).map .byte) = [.error .bodyCut] := by
  rw [readFrames, readFrame_cut digits payload ha hp hmax]
  rfl

end NoiseGate

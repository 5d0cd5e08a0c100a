import NoiseGate.Proofs.Frame.Lines

/-!
# Reading makes progress

Every read of a frame that does not find the end of the stream uses up a byte or a fault. A body is
read from a header block and the bytes behind it, and nothing more is used up. So a reader that
goes on after errors comes to the end of any stream, however malformed it is.
-/

namespace NoiseGate

variable {s rest : List Signal} {result : Except Fault Bytes}

/-- The bytes and the faults of a stream. Its ends do not count. -/
def substance (s : List Signal) : Nat := s.countP (· ≠ .finish)

theorem substance_append (s t : List Signal) : substance (s ++ t) = substance s + substance t :=
  List.countP_append

theorem substance_bytes (data : Bytes) : substance (data.map .byte) = data.length := by
  rw [substance, List.countP_map, List.countP_eq_length.mpr]
  simp

/-- Something of a stream is used up, and `rest` is left. -/
def Spends (s rest : List Signal) : Prop := ∃ used, s = used ++ rest ∧ 0 < substance used

theorem Spends.append {mid : List Signal} (h : Spends s mid) (hm : rest <:+ mid) :
    Spends s rest := by
  obtain ⟨used, rfl, hused⟩ := h
  obtain ⟨more, rfl⟩ := hm
  refine ⟨used ++ more, (List.append_assoc used more rest).symm, ?_⟩
  rw [substance_append]
  exact Nat.add_pos_left hused _

theorem Spends.lt (h : Spends s rest) : substance rest < substance s := by
  obtain ⟨used, rfl, hused⟩ := h
  rw [substance_append]
  omega

/-! ### Lines and header blocks -/

theorem TakesLine.suffix (h : TakesLine s result rest) : rest <:+ s := by
  cases h with
  | fed line rest h => exact ⟨line.map .byte, rfl⟩
  | cut line rest h => exact ⟨line.map .byte ++ [.finish], by simp⟩
  | last line h => exact ⟨line.map .byte, by simp⟩
  | lost line cause rest h => exact ⟨line.map .byte ++ [.fault cause], by simp⟩

theorem TakesLine.spends (h : TakesLine s result rest) (hr : result ≠ .ok []) : Spends s rest := by
  have hpos (line : Bytes) (hl : Except.ok line ≠ (.ok [] : Except Fault Bytes)) :
      0 < substance (line.map .byte) := by
    rw [substance_bytes, List.length_pos_iff]
    exact fun h => hl (congrArg _ h)
  cases h with
  | fed line rest h => exact ⟨line.map .byte, rfl, hpos line hr⟩
  | cut line rest h =>
    exact Spends.append ⟨line.map .byte, rfl, hpos line hr⟩ (List.suffix_cons .finish rest)
  | last line h => exact ⟨line.map .byte, by simp, hpos line hr⟩
  | lost line cause rest h =>
    refine ⟨line.map .byte ++ [.fault cause], by simp, ?_⟩
    rw [substance_append]
    exact Nat.add_pos_right _ Nat.one_pos

/-- Header lines and the blank one behind them, when the lines before gave a length. The last of
the lines about the length gives `n`, and `rest` is what stands behind the block. -/
inductive Heads : Option Nat → List Signal → Nat → List Signal → Prop
  | blank (n : Nat) (front rest : List Signal) (blank : Text)
      (hl : TakesLine (front ++ rest) (.ok (Utf8.encode blank)) rest) (hne : blank ≠ [])
      (hb : ∀ c ∈ blank, isBlank c = true) : Heads (some n) front n rest
  | length (given : Option Nat) (front block rest : List Signal) (line value : Text) (m n : Nat)
      (hl : TakesLine (front ++ (block ++ rest)) (.ok (Utf8.encode line)) (block ++ rest))
      (hv : GivesLength line value) (hm : Counts value m) (h : Heads (some m) block n rest) :
      Heads given (front ++ block) n rest
  | other (given : Option Nat) (front block rest : List Signal) (line : Text) (n : Nat)
      (hl : TakesLine (front ++ (block ++ rest)) (.ok (Utf8.encode line)) (block ++ rest))
      (hb : trim line ≠ []) (hv : ∀ value, ¬ GivesLength line value)
      (h : Heads given block n rest) : Heads given (front ++ block) n rest

namespace Buffered

theorem takesLine_readLine {b later : Buffered} (h : b.readLine [] = (result, later)) :
    TakesLine b.signals result later.signals := by
  have hline := takesLine_takeLine b.signals
  rwa [takeLine_of_readLine h] at hline

theorem readHeaders_suffix (started : Bool) (given : Option Nat) (b : Buffered) :
    (b.readHeaders started given).2.signals <:+ b.signals := by
  fun_induction readHeaders started given b with
  | case1 started given b cause later h => exact (takesLine_readLine h).suffix
  | case2 started given b later h => exact (takesLine_readLine h).suffix
  | case3 started given b c line later h e he => exact (takesLine_readLine h).suffix
  | case4 started given b c line later h he => exact (takesLine_readLine h).suffix
  | case5 started given b c line later h n he ih => exact ih.trans (takesLine_readLine h).suffix
  | case6 started given b c line later h he ih => exact ih.trans (takesLine_readLine h).suffix

theorem readHeaders_spends (started : Bool) (given : Option Nat) (b : Buffered) :
    started = false → (b.readHeaders started given).1 ≠ .ok none →
      Spends b.signals (b.readHeaders started given).2.signals := by
  fun_cases readHeaders started given b with
  | case1 cause later h => exact fun _ _ => (takesLine_readLine h).spends nofun
  | case2 later h =>
    rintro rfl hend
    exact absurd rfl hend
  | case3 c line later h e he => exact fun _ _ => (takesLine_readLine h).spends nofun
  | case4 c line later h he => exact fun _ _ => (takesLine_readLine h).spends nofun
  | case5 c line later h n he =>
    exact fun _ _ => ((takesLine_readLine h).spends nofun).append (readHeaders_suffix _ _ _)
  | case6 c line later h he =>
    exact fun _ _ => ((takesLine_readLine h).spends nofun).append (readHeaders_suffix _ _ _)

theorem exists_headerLine {b behind : Buffered} {line : Bytes} {meaning : HeaderLine}
    (h : b.readLine [] = (.ok line, behind)) (hm : HeaderLine.ofBytes line = .ok meaning) :
    ∃ front text, line = Utf8.encode text ∧ b.signals = front ++ behind.signals ∧
      TakesLine (front ++ behind.signals) (.ok (Utf8.encode text)) behind.signals ∧
      HeaderLine.Says text meaning := by
  have hline := takesLine_readLine h
  obtain ⟨front, hfront⟩ := hline.suffix
  obtain ⟨text, htext, hsays⟩ := (HeaderLine.ofBytes_eq_ok_iff _ _).mp hm
  rw [htext, ← hfront] at hline
  exact ⟨front, text, htext, hfront.symm, hline, hsays⟩

theorem heads_of_readHeaders (started : Bool) (given : Option Nat) (b later : Buffered) (n : Nat)
    (hr : b.readHeaders started given = (.ok (some n), later)) :
    ∃ header, b.signals = header ++ later.signals ∧ Heads given header n later.signals := by
  fun_induction readHeaders started given b with
  | case1 started given b cause behind h => cases hr
  | case2 started given b behind h => cases started <;> cases hr
  | case3 started given b c line behind h e he => cases hr
  | case4 started given b c line behind h he =>
    obtain ⟨front, text, htext, hfront, hline, hsays⟩ := exists_headerLine h he
    cases hsays with
    | blank hb =>
      cases given with
      | none => cases hr
      | some m =>
        cases hr
        have hne : text ≠ [] := by
          rintro rfl
          cases htext
        exact ⟨front, hfront, .blank _ front _ text hline hne hb⟩
  | case5 started given b c line behind h m he ih =>
    obtain ⟨front, text, htext, hfront, hline, hsays⟩ := exists_headerLine h he
    obtain ⟨block, hblock, hheads⟩ := ih hr
    rw [hblock] at hfront hline
    cases hsays with
    | length value m hv hm =>
      exact ⟨front ++ block, by rw [hfront, List.append_assoc],
        .length given front block _ text value m n hline hv hm hheads⟩
  | case6 started given b c line behind h he ih =>
    obtain ⟨front, text, htext, hfront, hline, hsays⟩ := exists_headerLine h he
    obtain ⟨block, hblock, hheads⟩ := ih hr
    rw [hblock] at hfront hline
    cases hsays with
    | other hb hv =>
      exact ⟨front ++ block, by rw [hfront, List.append_assoc],
        .other given front block _ text n hline hb hv hheads⟩

/-! ### Bodies and frames -/

theorem readBody_used (body : Bytes) (n : Nat) (b : Buffered) :
    ∃ used, b.signals = used ++ (b.readBody body n).2.signals ∧
      ∀ whole, (b.readBody body n).1 = .ok whole →
        ∃ data, whole = body ++ data ∧ data.length = n ∧ used = data.map .byte := by
  fun_induction readBody body n b with
  | case1 body b =>
    refine ⟨[], rfl, ?_⟩
    rintro whole ⟨⟩
    exact ⟨[], (List.append_nil body).symm, rfl, rfl⟩
  | case2 body b n cause rest h =>
    refine ⟨[.fault cause], signals_of_fault h, ?_⟩
    intro whole hwhole
    cases hwhole
  | case3 body b n rest h =>
    have hused : ∃ used, b.signals = used ++ (start rest).signals := by
      rcases signals_of_end (by rw [readSize]; omega) h with ⟨hs, hrest⟩ | hend
      · exact ⟨[], by rw [hs, hrest]; rfl⟩
      · exact ⟨[.finish], hend⟩
    obtain ⟨used, hused⟩ := hused
    refine ⟨used, hused, ?_⟩
    intro whole hwhole
    cases hwhole
  | case4 body b n c data rest h ih =>
    obtain ⟨used, hused, hbody⟩ := ih
    have hsplit : b.signals =
        (c :: data.take n).map .byte ++ (signals ⟨data.drop n, rest⟩) := by
      rw [signals_of_bytes h, signals, start, signals, List.map_nil, List.nil_append,
        ← List.append_assoc, ← List.map_append, List.cons_append, List.take_append_drop]
    refine ⟨(c :: data.take n).map .byte ++ used, by rw [hsplit, hused, List.append_assoc], ?_⟩
    intro whole hwhole
    obtain ⟨more, rfl, hlen, rfl⟩ := hbody whole hwhole
    refine ⟨c :: data.take n ++ more, by simp, ?_, by simp⟩
    rw [List.length_append, List.length_cons, List.length_take, hlen]
    omega

theorem readBody_suffix (body : Bytes) (n : Nat) (b : Buffered) :
    (b.readBody body n).2.signals <:+ b.signals := by
  obtain ⟨used, hused, -⟩ := readBody_used body n b
  exact ⟨used, hused.symm⟩

/-- A read of a frame uses up something, unless it finds the end of the stream. -/
theorem readFrame_used (b : Buffered) : b.readFrame.2.signals <:+ b.signals ∧
    (b.readFrame.1 ≠ .ok none → Spends b.signals b.readFrame.2.signals) := by
  have hsuffix := readHeaders_suffix false none b
  have hspends := readHeaders_spends false none b rfl
  fun_cases readFrame b with
  | case1 e later h =>
    rw [h] at hsuffix hspends
    exact ⟨hsuffix, fun _ => hspends (by simp)⟩
  | case2 later h =>
    rw [h] at hsuffix
    exact ⟨hsuffix, absurd rfl⟩
  | case3 n later h hlong =>
    rw [h] at hsuffix hspends
    exact ⟨hsuffix, fun _ => hspends (by simp)⟩
  | case4 n later h hlong body behind hread =>
    have hbody := readBody_suffix [] n later
    rw [hread] at hbody
    rw [h] at hsuffix hspends
    exact ⟨hbody.trans hsuffix, fun _ => (hspends (by simp)).append hbody⟩
  | case5 n later h hlong e behind hread =>
    have hbody := readBody_suffix [] n later
    rw [hread] at hbody
    rw [h] at hsuffix hspends
    exact ⟨hbody.trans hsuffix, fun _ => (hspends (by simp)).append hbody⟩

theorem heads_of_readFrame (b later : Buffered) (body : Bytes)
    (h : b.readFrame = (.ok (some body), later)) :
    ∃ header, b.signals = header ++ (body.map .byte ++ later.signals) ∧
      Heads none header body.length (body.map .byte ++ later.signals) := by
  revert h
  fun_cases readFrame b with
  | case1 e behind hheaders => simp
  | case2 behind hheaders => simp
  | case3 n behind hheaders hlong => simp
  | case4 n behind hheaders hlong whole left hread =>
    intro h
    cases h
    obtain ⟨header, hsplit, hheads⟩ := heads_of_readHeaders false none b behind n hheaders
    obtain ⟨used, hused, hbody⟩ := readBody_used [] n behind
    rw [hread] at hused hbody
    obtain ⟨data, rfl, rfl, rfl⟩ := hbody body rfl
    rw [hused] at hsplit hheads
    exact ⟨header, hsplit, hheads⟩
  | case5 n behind hheaders hlong e left hread => simp

/-- A reader that goes on after errors comes to the end. -/
theorem readFrames_reach_end (limit : Nat) (b : Buffered) (h : substance b.signals < limit) :
    (readFrames true limit b).getLast? = some (.ok none) ∧
      (readFrames true limit b).length ≤ substance b.signals + 1 := by
  induction limit generalizing b with
  | zero => cases h
  | succ limit ih =>
    have hspends := (readFrame_used b).2
    have hrest (later : Buffered) (hlt : substance later.signals < substance b.signals)
        (result : Except ReadError (Option Bytes)) :
        (result :: readFrames true limit later).getLast? = some (.ok none) ∧
          (result :: readFrames true limit later).length ≤ substance b.signals + 1 := by
      obtain ⟨hlast, hlen⟩ := ih later (by omega)
      rw [List.getLast?_cons, hlast, List.length_cons]
      exact ⟨rfl, by omega⟩
    rw [readFrames]
    rcases hread : b.readFrame with ⟨result, later⟩
    rw [hread] at hspends
    cases result with
    | error e => exact hrest later (hspends (by simp)).lt (.error e)
    | ok frame =>
      cases frame with
      | none => exact ⟨rfl, Nat.le_add_left 1 _⟩
      | some body => exact hrest later (hspends (by simp)).lt (.ok (some body))

end Buffered

namespace Arrival

def volume : List Arrival → Nat
  | [] => 0
  | .bytes data :: rest => data.length + volume rest
  | .fault _ :: rest => volume rest

theorem substance_flatMap_signals_le (stream : List Arrival) :
    substance (stream.flatMap signals) ≤ volume stream + stream.length := by
  fun_induction volume stream with
  | case1 => exact Nat.le_refl 0
  | case2 data rest ih =>
    have hdata : substance (signals (.bytes data)) = data.length := by
      cases data with
      | nil => rfl
      | cons b data => exact substance_bytes (b :: data)
    rw [List.flatMap_cons, substance_append, hdata, List.length_cons]
    omega
  | case3 cause rest ih =>
    have hfault : substance (signals (.fault cause)) = 1 := rfl
    rw [List.flatMap_cons, substance_append, hfault, List.length_cons]
    omega

end Arrival

namespace Buffered

/-- Every read uses up a part of the stream in front of what it leaves. There is a byte or a fault
in it unless the read finds the end, and it is a header block and a body if a body is read. So a
reader that goes on after errors comes to the end, after no more reads than there are bytes and
arrivals, and one more. -/
theorem readFrame_makes_progress :
    (∀ b : Buffered,
      let result := b.readFrame.1
      let later := b.readFrame.2
      ∃ used, b.signals = used ++ later.signals ∧
        (result ≠ .ok none → 0 < substance used) ∧
        ∀ body, result = .ok (some body) → ∃ header, used = header ++ body.map .byte ∧
          Heads none header body.length (body.map .byte ++ later.signals)) ∧
    ∀ (stream : List Arrival) (more : Nat),
      let limit := Arrival.volume stream + stream.length + 1
      let reads := readFrames true (limit + more) (start stream)
      reads.length ≤ limit ∧ reads.getLast? = some (.ok none) := by
  constructor
  · intro b result later
    obtain ⟨⟨used, hused⟩, hspends⟩ := readFrame_used b
    refine ⟨used, hused.symm, ?_, ?_⟩
    · intro hresult
      have hlt := (hspends hresult).lt
      rw [← hused, substance_append] at hlt
      exact Nat.pos_of_lt_add_left hlt
    · intro body hbody
      obtain ⟨header, hsplit, hheader⟩ := heads_of_readFrame b later body (Prod.ext hbody rfl)
      refine ⟨header, ?_, hheader⟩
      rw [← hused, ← List.append_assoc] at hsplit
      exact List.append_cancel_right hsplit
  · intro stream more limit reads
    have hle : substance (start stream).signals < limit :=
      Nat.lt_succ_of_le (Arrival.substance_flatMap_signals_le stream)
    obtain ⟨hlast, hlen⟩ := readFrames_reach_end (limit + more) (start stream)
      (Nat.lt_add_right more hle)
    exact ⟨Nat.le_trans hlen hle, hlast⟩

/-- An end of the stream stands in the header block, and a fault behind the body. -/
theorem readFrame_uses_interrupted_header :
    let b := start [.bytes (ascii "Content-Length: 2"), .bytes [], .bytes (ascii "\r\n[]z"),
      .fault .timedOut]
    let later := [Signal.byte 122, .fault .timedOut]
    b.readFrame.1 = .ok (some (ascii "[]")) ∧ b.readFrame.1 ≠ .ok none ∧
      ∃ used, b.signals = used ++ later ∧ 0 < substance used ∧
        ∃ header, used = header ++ (ascii "[]").map .byte ∧
          Heads none header 2 ((ascii "[]").map .byte ++ later) := by
  intro b later
  have hread : NoiseGate.readFrame b.signals = (.ok (some (ascii "[]")), later) := by
    have hfirst : takeLine [] b.signals =
        (.ok (67 :: ascii "ontent-Length: 2"), (ascii "\r\n[]").map .byte ++ later) := rfl
    have hsecond : takeLine [] ((ascii "\r\n[]").map .byte ++ later) =
        (.ok [13, 10], (ascii "[]").map .byte ++ later) := rfl
    have hlength : HeaderLine.ofBytes (67 :: ascii "ontent-Length: 2") = .ok (.length 2) := by decide
    have hblank : HeaderLine.ofBytes [13, 10] = .ok .blank := by decide
    have hheaders : takeHeaders false none b.signals =
        (.ok (some 2), (ascii "[]").map .byte ++ later) := by
      rw [takeHeaders_of_line false none hfirst, hlength]
      dsimp only
      rw [takeHeaders_of_line true (some 2) hsecond, hblank]
      rfl
    rw [NoiseGate.readFrame, hheaders]
    rfl
  rw [readFrame_signals] at hread
  obtain ⟨hresult, hlater⟩ := Prod.mk.inj hread
  have hne : b.readFrame.1 ≠ .ok none := by simp [hresult]
  obtain ⟨used, hsplit, hused, hbody⟩ := readFrame_makes_progress.1 b
  rw [hlater] at hsplit hbody
  exact ⟨hresult, hne, used, hsplit, hused hne, hbody _ hresult⟩

end Buffered

end NoiseGate

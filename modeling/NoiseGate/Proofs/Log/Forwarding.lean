import NoiseGate.Log.ServerLog
import NoiseGate.Proofs.Frame.Lines
import NoiseGate.Proofs.Stream.Delivery

/-!
# Forwarding the error stream

The lines of the error stream are appended to the log file as they are, and each of them is
reported. Where reads cut the stream makes no difference. A fault loses the line that it falls into.
The end of the stream ends the lines only between two of them: a line that it cuts short is kept,
and what a later read gives is forwarded too.
-/

namespace NoiseGate

/-! ### Appending to a file -/

namespace FileTree

variable {t after : FileTree} {location : Location}

theorem entry?_put_self (t : FileTree) (e : FileEntry) (hl : location ≠ []) :
    entry? (t.put location e) location = some e := by
  obtain ⟨name, names, rfl⟩ := List.exists_cons_of_ne_nil hl
  exact List.lookup_cons_self

theorem entry?_put_of_ne (t : FileTree) (e : FileEntry) {other : Location}
    (hne : other ≠ location) : entry? (t.put location e) other = t.entry? other := by
  cases other with
  | nil => rfl
  | cons name names =>
    have hname : (name :: names == location) = false := beq_false_of_ne hne
    simp only [put, entry?, List.lookup_cons, hname]
    generalize t.entries = entries
    induction entries with
    | nil => rfl
    | cons entry entries ih =>
      obtain ⟨place, found⟩ := entry
      by_cases hplace : place = location
      · have hother : (name :: names == place) = false := beq_false_of_ne (hplace ▸ hne)
        rw [List.filter_cons_of_neg (by simpa using hplace), ih, List.lookup_cons, hother]
      · rw [List.filter_cons_of_pos (by simpa using hplace), List.lookup_cons, ih,
          List.lookup_cons]

/-- Data is appended to what is at a location, and nothing else changes. A device holds none of
it. -/
structure Appends (t : FileTree) (location : Location) (data : Bytes) (after : FileTree) : Prop where
  file : ∀ content, t.entry? location = some (.file content) →
    after.entry? location = some (.file (content ++ data))
  device : ∀ takes, t.entry? location = some (.device takes) →
    after.entry? location = some (.device takes)
  others : ∀ other, other ≠ location → after.entry? other = t.entry? other
  start : after.start = t.start

theorem Appends.nothing (t : FileTree) (location : Location) : t.Appends location [] t where
  file content h := by rw [h, List.append_nil]
  device _ h := h
  others _ _ := rfl
  start := rfl

theorem Appends.append {mid : FileTree} {data more : Bytes} (h : t.Appends location data mid)
    (hm : mid.Appends location more after) : t.Appends location (data ++ more) after where
  file content hc := by rw [hm.file _ (h.file content hc), List.append_assoc]
  device takes hd := hm.device takes (h.device takes hd)
  others other hne := (hm.others other hne).trans (h.others other hne)
  start := hm.start.trans h.start

/-- Whatever is written there is taken. -/
def Takes (t : FileTree) (location : Location) : Prop :=
  ∀ data, (t.append location data).2 = true

theorem takes_iff (t : FileTree) (location : Location) : t.Takes location ↔
    (∃ content, t.entry? location = some (.file content)) ∨
      t.entry? location = some (.device true) := by
  constructor
  · intro h
    have htaken := h [0]
    match hfound : t.entry? location with
    | some (.file content) => exact .inl ⟨content, rfl⟩
    | some (.device true) => exact .inr rfl
    | some (.device false) | some .directory | none => simp [append, hfound] at htaken
  · rintro (⟨content, hc⟩ | hd) data
    · simp only [append, hc]
    · simp only [append, hd, Bool.true_or]

theorem Takes.exists_append (h : t.Takes location) (data : Bytes) : ∃ after,
    t.append location data = (after, true) ∧ t.Appends location data after ∧
      after.Takes location := by
  rcases (takes_iff t location).mp h with ⟨content, hc⟩ | hd
  · have hl : location ≠ [] := by
      rintro rfl
      cases hc
    have hself := entry?_put_self t (.file (content ++ data)) hl
    refine ⟨t.put location (.file (content ++ data)), by simp only [append, hc], ⟨?_, ?_, ?_, rfl⟩,
      (takes_iff _ _).mpr (.inl ⟨_, hself⟩)⟩
    · intro found hfound
      cases hc.symm.trans hfound
      exact hself
    · intro takes hfound
      cases hc.symm.trans hfound
    · exact fun other hne => entry?_put_of_ne t _ hne
  · refine ⟨t, by simp only [append, hd, Bool.true_or], ⟨?_, ?_, fun _ _ => rfl, rfl⟩, h⟩
    · intro found hfound
      cases hd.symm.trans hfound
    · exact fun _ hfound => hfound

end FileTree

/-! ### What stands where the delivery ends -/

namespace Arrival

def behindEnd : List Arrival → List Arrival
  | [] => []
  | .bytes [] :: rest => rest
  | _ :: rest => behindEnd rest

/-- A stream that is at its end. -/
def GivesNothing (stream : List Arrival) : Prop := delivered stream = [] ∧ failure stream = none

theorem signals_delivered (stream : List Arrival) : ∃ behind,
    stream.flatMap signals = (delivered stream).flatten.map .byte ++ behind ∧
      (∀ cause, failure stream = some cause → behind.head? = some (.fault cause)) ∧
      (failure stream = none → Signal.IsEnd behind ((behindEnd stream).flatMap signals)) := by
  fun_induction delivered stream with
  | case1 => exact ⟨[], rfl, by simp [failure], fun _ => .inl ⟨rfl, rfl⟩⟩
  | case2 rest => exact ⟨_, rfl, by simp [failure], fun _ => .inr rfl⟩
  | case3 cause rest => exact ⟨_, rfl, by simp [failure], by simp [failure]⟩
  | case4 b chunk rest ih =>
    obtain ⟨behind, hrest, hfault, hend⟩ := ih
    refine ⟨behind, ?_, hfault, hend⟩
    rw [List.flatMap_cons, hrest, List.flatten_cons, List.map_append, List.append_assoc]
    rfl

end Arrival

/-- Data is lines, and a tail without a line feed. -/
structure Lined (data : Bytes) (lines : List Bytes) (tail : Bytes) : Prop where
  parts : data = lines.flatten ++ tail
  ended : ∀ line ∈ lines, IsLine line
  unended : 10 ∉ tail

theorem exists_lined (data : Bytes) : ∃ lines tail, Lined data lines tail := by
  induction data with
  | nil => exact ⟨[], [], rfl, nofun, nofun⟩
  | cons b data ih =>
    obtain ⟨lines, tail, rfl, hlines, htail⟩ := ih
    by_cases hb : b = 10
    · refine ⟨[b] :: lines, tail, rfl, ?_, htail⟩
      exact List.forall_mem_cons.mpr ⟨⟨[], by rw [hb]; rfl, nofun⟩, hlines⟩
    · cases lines with
      | nil =>
        exact ⟨[], b :: tail, rfl, nofun, List.not_mem_cons_of_ne_of_not_mem (Ne.symm hb) htail⟩
      | cons line lines =>
        obtain ⟨⟨front, rfl, hfront⟩, hrest⟩ := List.forall_mem_cons.mp hlines
        have hline : IsLine (b :: (front ++ [10])) :=
          ⟨b :: front, rfl, List.not_mem_cons_of_ne_of_not_mem (Ne.symm hb) hfront⟩
        exact ⟨(b :: (front ++ [10])) :: lines, tail, rfl,
          List.forall_mem_cons.mpr ⟨hline, hrest⟩, htail⟩

theorem Buffered.readLine_of_takeLine {b : Buffered} {result : Except Fault Bytes}
    {rest : List Signal} (h : takeLine [] b.signals = (result, rest)) :
    ∃ later, b.readLine [] = (result, later) ∧ later.signals = rest := by
  have hline := takeLine_signals [] b
  rw [List.reverse_nil, h] at hline
  obtain ⟨hresult, hrest⟩ := Prod.mk.inj hline
  exact ⟨(b.readLine []).2, Prod.ext hresult.symm rfl, hrest.symm⟩

namespace ServerLog

open FileTree Arrival

variable (log : ServerLog) (t : FileTree) (location : Location)

/-! ### One line -/

theorem forwardFrom_of_fault {b later : Buffered} {cause : Fault}
    (h : b.readLine [] = (.error cause, later)) :
    log.forwardFrom t b = (t, [.errorStreamFailed cause]) := by
  fun_cases forwardFrom log t b with
  | case1 found behind hread =>
    cases h.symm.trans hread
    rfl
  | case2 behind hread => cases h.symm.trans hread
  | case3 c line behind hread => cases h.symm.trans hread

theorem forwardFrom_of_end {b later : Buffered} (h : b.readLine [] = (.ok [], later)) :
    log.forwardFrom t b = (t, []) := by
  fun_cases forwardFrom log t b with
  | case1 cause behind hread => cases h.symm.trans hread
  | case2 behind hread => rfl
  | case3 c line behind hread => cases h.symm.trans hread

theorem forwardFrom_of_line {b later : Buffered} {line : Bytes} (hne : line ≠ [])
    (h : b.readLine [] = (.ok line, later)) :
    log.forwardFrom t b =
      ((log.forwardFrom (log.keep t (.serverError line)).1 later).1,
        (log.keep t (.serverError line)).2 ++
          (log.forwardFrom (log.keep t (.serverError line)).1 later).2) := by
  fun_cases forwardFrom log t b with
  | case1 cause behind hread => cases h.symm.trans hread
  | case2 behind hread =>
    cases h.symm.trans hread
    exact absurd rfl hne
  | case3 c line behind hread mid events hkeep after more hrest =>
    cases h.symm.trans hread
    rw [hkeep, hrest]

theorem forwardFrom_congr {b other : Buffered} (h : other.signals = b.signals) :
    log.forwardFrom t other = log.forwardFrom t b := by
  fun_induction forwardFrom log t b generalizing other with
  | case1 t b cause later hb =>
    obtain ⟨behind, hother, -⟩ :=
      Buffered.readLine_of_takeLine (h ▸ Buffered.takeLine_of_readLine hb)
    exact forwardFrom_of_fault log t hother
  | case2 t b later hb =>
    obtain ⟨behind, hother, -⟩ :=
      Buffered.readLine_of_takeLine (h ▸ Buffered.takeLine_of_readLine hb)
    exact forwardFrom_of_end log t hother
  | case3 t b c line later hb mid events hkeep after more hrest ih =>
    obtain ⟨behind, hother, hbehind⟩ :=
      Buffered.readLine_of_takeLine (h ▸ Buffered.takeLine_of_readLine hb)
    rw [forwardFrom_of_line log t (List.cons_ne_nil c line) hother, hkeep, ih hbehind, hrest]

/-- Lines are kept one after the other. What is left of the stream is then `later`. -/
structure Keeps (t : FileTree) (b : Buffered) (lines : List Bytes) (after : FileTree)
    (later : Buffered) : Prop where
  appends : t.Appends location lines.flatten after
  takes : after.Takes location
  run : log.forwardFrom t b = ((log.forwardFrom after later).1,
    lines.map .serverError ++ (log.forwardFrom after later).2)

variable {log t location}

theorem Keeps.append {mid after : FileTree} {b behind later : Buffered} {lines more : List Bytes}
    (h : log.Keeps location t b lines mid behind)
    (hm : log.Keeps location mid behind more after later) :
    log.Keeps location t b (lines ++ more) after later where
  appends := by
    rw [List.flatten_append]
    exact h.appends.append hm.appends
  takes := hm.takes
  run := by rw [h.run, hm.run, List.map_append, List.append_assoc]

section Taken

variable (hf : log.file = some location) (ht : t.Takes location)
include hf ht

theorem exists_keeps_line {b later : Buffered} {line : Bytes} (hne : line ≠ [])
    (h : b.readLine [] = (.ok line, later)) : ∃ after, log.Keeps location t b [line] after later := by
  obtain ⟨after, hafter, happends, htakes⟩ := ht.exists_append line
  have hkeep : log.keep t (.serverError line) = (after, [.serverError line]) := by
    simp only [keep, hf, Remark.pieces, Remark.event, FileTree.appendAll, hafter]
  refine ⟨after, ?_, htakes, ?_⟩
  · rwa [List.flatten_singleton]
  · rw [forwardFrom_of_line log t hne h, hkeep]
    rfl

theorem exists_keeps_lines (lines : List Bytes) {b : Buffered} {rest : List Signal}
    (hl : ∀ line ∈ lines, IsLine line) (hb : b.signals = lines.flatten.map .byte ++ rest) :
    ∃ after later, log.Keeps location t b lines after later ∧ later.signals = rest := by
  induction lines generalizing t b with
  | nil => exact ⟨t, b, ⟨.nothing t location, ht, rfl⟩, hb⟩
  | cons line lines ih =>
    obtain ⟨hline, hrest⟩ := List.forall_mem_cons.mp hl
    have hne : line ≠ [] := by
      obtain ⟨front, rfl, -⟩ := hline
      exact List.append_ne_nil_of_right_ne_nil front (List.cons_ne_nil 10 [])
    have htaken := TakesLine.fed line (lines.flatten.map .byte ++ rest) hline
    rw [← List.append_assoc, ← List.map_append, ← List.flatten_cons, ← hb] at htaken
    obtain ⟨behind, hread, hbehind⟩ := Buffered.readLine_of_takeLine htaken.takeLine_eq
    obtain ⟨mid, hmid⟩ := exists_keeps_line hf ht hne hread
    obtain ⟨after, later, hkeeps, hlater⟩ := ih hmid.takes hrest hbehind
    exact ⟨after, later, hmid.append hkeeps, hlater⟩

theorem exists_keeps_tail {b : Buffered} {tail : Bytes} {behind rest : List Signal} (hne : tail ≠ [])
    (htail : 10 ∉ tail) (hb : b.signals = tail.map .byte ++ behind) (hend : Signal.IsEnd behind rest) :
    ∃ after later, log.Keeps location t b [tail] after later ∧ later.signals = rest := by
  have hline : takeLine [] b.signals = (.ok tail, rest) := by
    rw [hb, takeLine_bytes [] tail behind htail, List.append_nil, takeLine_end _ hend,
      List.reverse_reverse]
  obtain ⟨later, hread, hlater⟩ := Buffered.readLine_of_takeLine hline
  obtain ⟨after, hkeeps⟩ := exists_keeps_line hf ht hne hread
  exact ⟨after, later, hkeeps, hlater⟩

end Taken

theorem forwardFrom_at_end {b : Buffered} {rest : List Signal} (h : Signal.IsEnd b.signals rest) :
    log.forwardFrom t b = (t, []) := by
  obtain ⟨later, hread, -⟩ := Buffered.readLine_of_takeLine (takeLine_end [] h)
  exact forwardFrom_of_end log t hread

theorem forwardFrom_lost {b : Buffered} {tail : Bytes} {cause : Fault} {rest : List Signal}
    (htail : 10 ∉ tail) (hb : b.signals = tail.map .byte ++ .fault cause :: rest) :
    log.forwardFrom t b = (t, [.errorStreamFailed cause]) := by
  have hlost : TakesLine b.signals (.error cause) rest := hb ▸ .lost tail cause rest htail
  obtain ⟨later, hread, -⟩ := Buffered.readLine_of_takeLine hlost.takeLine_eq
  exact forwardFrom_of_fault log t hread

/-! ### A whole stream -/

theorem forward_congr {stream other : List Arrival}
    (h : other.flatMap signals = stream.flatMap signals) :
    log.forward t other = log.forward t stream :=
  forwardFrom_congr log t h

theorem forward_nothing {stream : List Arrival} (h : GivesNothing stream) :
    log.forward t stream = (t, []) := by
  obtain ⟨behind, hsplit, -, hend⟩ := signals_delivered stream
  have hsignals : (Buffered.start stream).signals = behind := by
    rw [h.1] at hsplit
    exact hsplit
  exact forwardFrom_at_end (hsignals ▸ hend h.2)

/-- What is received is appended as it is and reported line by line, the unfinished line at the end
of the stream included. A fault loses that line. If the end of the stream falls into a line, then
what later reads give is forwarded behind it. How the stream is cut into chunks does not matter. -/
theorem forward_copies_lines (log : ServerLog) (t : FileTree) (location : Location)
    (stream : List Arrival) (hf : log.file = some location) (ht : t.Takes location) :
    let received := (delivered stream).flatten
    let result := log.forward t stream
    (∃ lines tail, Lined received lines tail) ∧
    (∀ lines tail, Lined received lines tail →
      (∀ cause, failure stream = some cause → t.Appends location lines.flatten result.1 ∧
        result.2 = lines.map .serverError ++ [.errorStreamFailed cause]) ∧
      (failure stream = none → tail = [] ∨ GivesNothing (behindEnd stream) →
        t.Appends location received result.1 ∧
          result.2 = (lines ++ if tail = [] then [] else [tail]).map .serverError) ∧
      (failure stream = none → tail ≠ [] → ∃ mid, t.Appends location received mid ∧
        mid.Takes location ∧
          let later := log.forward mid (behindEnd stream)
          result = (later.1, (lines ++ [tail]).map .serverError ++ later.2))) ∧
    ∀ other, other.flatMap signals = stream.flatMap signals → log.forward t other = result := by
  intro received result
  refine ⟨exists_lined received, ?_, fun other h => forward_congr h⟩
  intro lines tail hlined
  obtain ⟨behind, hsplit, hfault, hend⟩ := signals_delivered stream
  have hsignals : (Buffered.start stream).signals =
      lines.flatten.map .byte ++ (tail.map .byte ++ behind) := by
    rw [← List.append_assoc, ← List.map_append, ← hlined.parts]
    exact hsplit
  obtain ⟨after, b, hkeeps, hb⟩ := exists_keeps_lines hf ht lines hlined.ended hsignals
  have hrun : result = ((log.forwardFrom after b).1,
      lines.map .serverError ++ (log.forwardFrom after b).2) := hkeeps.run
  have hgoesOn (hnone : failure stream = none) (hne : tail ≠ []) :
      ∃ mid, t.Appends location received mid ∧ mid.Takes location ∧
        result = ((log.forward mid (behindEnd stream)).1, (lines ++ [tail]).map .serverError ++
          (log.forward mid (behindEnd stream)).2) := by
    obtain ⟨mid, later, hmid, hlater⟩ :=
      exists_keeps_tail hf hkeeps.takes hne hlined.unended hb (hend hnone)
    have hall := hkeeps.append hmid
    have hrest : log.forward mid (behindEnd stream) = log.forwardFrom mid later :=
      forwardFrom_congr log mid hlater.symm
    refine ⟨mid, ?_, hall.takes, ?_⟩
    · rw [hlined.parts, ← List.flatten_singleton (l := tail), ← List.flatten_append]
      exact hall.appends
    · rw [hrest]
      exact hall.run
  refine ⟨?_, ?_, hgoesOn⟩
  · intro cause hcause
    obtain ⟨rest, rfl⟩ := List.head?_eq_some_iff.mp (hfault cause hcause)
    rw [hrun, forwardFrom_lost hlined.unended hb]
    exact ⟨hkeeps.appends, rfl⟩
  · intro hnone hlast
    by_cases hempty : tail = []
    · subst hempty
      have hbehind : Signal.IsEnd b.signals ((behindEnd stream).flatMap signals) := by
        rw [hb]
        exact hend hnone
      rw [hrun, forwardFrom_at_end hbehind, hlined.parts, if_pos rfl]
      simpa using hkeeps.appends
    · obtain ⟨mid, happends, -, hresult⟩ := hgoesOn hnone hempty
      rw [hresult, forward_nothing (hlast.resolve_left hempty), if_neg hempty, List.append_nil]
      exact ⟨happends, rfl⟩

/-- A fault in the second line. -/
theorem forward_until_fault :
    let location : Location := ["s.log".toList]
    let log : ServerLog := ⟨some location⟩
    let t : FileTree := ⟨[(location, .file (ascii "zero\n"))], []⟩
    let stream := [.bytes (ascii "one\ntw"), .bytes (ascii "o"), .fault .timedOut]
    log.file = some location ∧ t.Takes location ∧
      FileTree.entry? (log.forward t stream).1 location = some (.file (ascii "zero\none\n")) ∧
      (log.forward t stream).2 = [.serverError (ascii "one\n"), .errorStreamFailed .timedOut] := by
  intro location log t stream
  have htakes : t.Takes location := (takes_iff t location).mpr (.inl ⟨ascii "zero\n", rfl⟩)
  have hlined : Lined (delivered stream).flatten [ascii "one\n"] (ascii "two") := by
    refine ⟨rfl, List.forall_mem_singleton.mpr ⟨ascii "one", rfl, by decide⟩, by decide⟩
  obtain ⟨happends, hevents⟩ :=
    ((forward_copies_lines log t location stream rfl htakes).2.1 _ _ hlined).1 .timedOut rfl
  exact ⟨rfl, htakes, happends.file _ rfl, hevents⟩

/-- An end that falls into a line is not the end of what is forwarded. -/
theorem forward_goes_on_inside_line :
    ¬ ∀ (log : ServerLog) (t : FileTree) (location : Location) (stream : List Arrival),
      log.file = some location → t.Takes location → failure stream = none →
        t.Appends location (delivered stream).flatten (log.forward t stream).1 := by
  intro h
  let location : Location := ["s.log".toList]
  let log : ServerLog := ⟨some location⟩
  let t : FileTree := ⟨[(location, .file [])], []⟩
  let stream : List Arrival := [.bytes (ascii "abc"), .bytes [], .bytes (ascii "def\n")]
  have hf : log.file = some location := rfl
  have htakes : t.Takes location := (takes_iff t location).mpr (.inl ⟨[], rfl⟩)
  have hbegin : (Buffered.start stream).signals =
      (ascii "abc").map .byte ++ .finish :: (ascii "def\n").map .byte := rfl
  obtain ⟨mid, b, hfirst, hb⟩ :=
    exists_keeps_tail hf htakes (by decide) (by decide) hbegin (.inr rfl)
  have hline : IsLine (ascii "def\n") := ⟨ascii "def", rfl, by decide⟩
  have hbehind : b.signals = [ascii "def\n"].flatten.map .byte ++ [] := hb
  obtain ⟨after, later, hsecond, hlater⟩ :=
    exists_keeps_lines hf hfirst.takes _ (List.forall_mem_singleton.mpr hline) hbehind
  have hall := hfirst.append hsecond
  have hafter : (log.forward t stream).1 = after := by
    have hrun : log.forward t stream = _ := hall.run
    rw [hrun, forwardFrom_at_end (.inl ⟨hlater, rfl⟩)]
  have hclaimed := (h log t location stream hf htakes rfl).file [] rfl
  rw [hafter, hall.appends.file [] rfl] at hclaimed
  exact absurd hclaimed (by decide)

end ServerLog

end NoiseGate

import Mathlib.Order.Bounds.Defs
import NoiseGate.Proofs.Frame.Conservation
import NoiseGate.Proofs.Frame.Reference
import NoiseGate.Proofs.Relay.Drivers

/-!
# The laziness of the stream of messages

A stream of messages makes no read that it does not need: the reads made when it gives a message are
the fewest that hold the end of the message. It gives the messages that the search over the whole
stream finds complete. After its end, or after its one fault, it reads no more.
-/

namespace NoiseGate

open Header Segment Arrival Sanitizer

theorem isFrame_iff_isFull (stream : Bytes) :
    ∀ s ∈ slices stream, IsFrame s.bytes ↔ s.isFull = true := by
  induction Layout.of_bytes stream with
  | quiet noise hn => simp [slices_of_none noise hn]
  | cut noise digits payload hn ha hp =>
    intro s hs
    rw [slices_cut noise digits payload hn ha hp, List.mem_singleton] at hs
    subst s
    have hl := locate_append_spell [] digits payload locate_nil ha
    simp only [Slice.isFull, beq_iff_eq, List.length_append, spell_length]
    constructor
    · rintro ⟨h, hl', -, hsize⟩
      rw [List.nil_append] at hl
      rw [hl] at hl'
      obtain rfl := Option.some.inj hl'
      rw [spelledAt_frameSize, List.length_append, spell_length] at hsize
      omega
    · intro hlen
      omega
  | message noise digits payload rest hn ha hp hr ih =>
    intro s hs
    rw [slices_message noise digits payload rest hn ha hp, List.mem_cons] at hs
    rcases hs with rfl | hs
    · simp only [Slice.isFull, beq_iff_eq, List.length_append, spell_length, hp, iff_true]
      exact isFrame_spell digits payload ha hp
    · exact ih s hs

namespace Arrival

theorem delivered_take (arrivals : List Arrival) (n : Nat) :
    delivered (arrivals.take n) = (delivered arrivals).take n := by
  fun_induction delivered arrivals generalizing n with
  | case1 => simp [delivered]
  | case2 rest => cases n <;> simp [delivered]
  | case3 cause rest => cases n <;> simp [delivered]
  | case4 b chunk rest ih =>
    cases n with
    | zero => rfl
    | succ n => rw [List.take_succ_cons, delivered, ih, List.take_succ_cons]

end Arrival

namespace Messages

def completed (chunks : List Bytes) : List Bytes :=
  (Assembler.empty.pushAll (Sanitizer.start.feedAll chunks).1).1

theorem completed_nil : completed [] = [] := rfl

theorem completed_append (chunks later : List Bytes) :
    completed (chunks ++ later) =
      completed chunks ++ ((Assembler.empty.pushAll (Sanitizer.start.feedAll chunks).1).2.pushAll
        ((Sanitizer.start.feedAll chunks).2.feedAll later).1).1 := by
  rw [completed, feedAll_append, prepend_fst, Assembler.pushAll_append]
  rfl

theorem completed_mono {chunks chunks' : List Bytes} (h : chunks <+: chunks') :
    completed chunks <+: completed chunks' := by
  obtain ⟨later, rfl⟩ := h
  rw [completed_append]
  exact List.prefix_append _ _

/-- A stream of messages that has taken some chunks and given all messages that they complete. -/
structure Drained (m : Messages) (past : List Bytes) : Prop where
  sanitizer : m.sanitizer = some (Sanitizer.start.feedAll past).2
  assembler : m.assembler = (Assembler.empty.pushAll (Sanitizer.start.feedAll past).1).2
  reads : m.reads = past.length
  ready : m.ready = []

theorem drained_start (stream : List Arrival) : (Messages.start stream).Drained [] :=
  ⟨rfl, rfl, rfl, rfl⟩

variable {m : Messages} {past all : List Bytes} {rest : List Arrival} {chunk : Bytes}

theorem Drained.take (hd : m.Drained past) (chunk : Bytes) (rest : List Arrival) :
    let later := m.take (Sanitizer.start.feedAll past).2 chunk rest
    ({ later with ready := [] } : Messages).Drained (past ++ [chunk]) ∧
      completed (past ++ [chunk]) = completed past ++ later.ready := by
  intro later
  refine ⟨⟨?_, ?_, ?_, rfl⟩, ?_⟩
  · rw [feedAll_append, prepend_snd, feedAll_singleton]
    rfl
  · rw [feedAll_append, prepend_fst, feedAll_singleton, Assembler.pushAll_append, ← hd.assembler]
    rfl
  · simp [later, Messages.take, hd.reads]
  · rw [completed_append, feedAll_singleton, ← hd.assembler]
    simp [later, Messages.take, hd.ready]

/-- What is still to be given behind some chunks of a stream is given as soon as it is complete, and
nothing is read in the end. -/
structure Prompt (m : Messages) (past all : List Bytes) : Prop where
  least : ∀ i message n, m.items.1[i]? = some (.ok message, n) →
    IsLeast {n | (completed past).length + i < (completed (all.take n)).length} n
  fault : ∀ cause n, (.error cause, n) ∈ m.items.1 → n = m.items.2.reads
  reads : m.items.2.reads = all.length + 1
  ended : m.items.2.next = (none, m.items.2)

theorem Prompt.of_close (hd : m.Drained past) {s : Sanitizer} (h : m.next = (none, m.close s rest)) :
    m.Prompt past past := by
  have hitems := items_of_none h
  constructor <;> rw [hitems]
  · intro i message n hi
    cases hi
  · intro cause n hn
    cases hn
  · exact congrArg Nat.succ hd.reads
  · exact next_of_ended _ rfl hd.ready

theorem Prompt.of_fault (hd : m.Drained past) {cause : Fault} (h : m.next = (some (.error cause),
    { m with arrivals := rest, reads := m.reads + 1, sanitizer := none })) : m.Prompt past past := by
  have hitems := items_of_fault hd.ready h
  constructor <;> rw [hitems]
  · intro i message n hi
    cases i <;> cases hi
  · intro other n hn
    cases List.mem_singleton.mp hn
    rfl
  · exact congrArg Nat.succ hd.reads
  · exact next_of_ended _ rfl hd.ready

/-- A message that one more read completes could not be given before it. -/
theorem isLeast_read {i : Nat} (hall : past ++ [chunk] <+: all)
    (hlt : (completed past).length + i < (completed (past ++ [chunk])).length) :
    IsLeast {n | (completed past).length + i < (completed (all.take n)).length} (past.length + 1) := by
  have hpast : past = all.take past.length :=
    List.prefix_iff_eq_take.mp ((List.prefix_append past [chunk]).trans hall)
  have hlater : past ++ [chunk] = all.take (past.length + 1) := by
    have htake := List.prefix_iff_eq_take.mp hall
    rwa [List.length_append, List.length_singleton] at htake
  constructor
  · change _ < (completed (all.take (past.length + 1))).length
    rwa [← hlater]
  · intro n hn
    change _ < (completed (all.take n)).length at hn
    apply Nat.lt_of_not_le
    intro hle
    have hfewer : all.take n <+: past := by
      rw [hpast]
      exact List.take_prefix_take_left hle
    have hlength := (completed_mono hfewer).length_le
    omega

theorem Prompt.read {later : Messages} (h : m.next = later.next)
    (hcompleted : completed (past ++ [chunk]) = completed past ++ later.ready)
    (hreads : later.reads = past.length + 1)
    (hp : ({ later with ready := [] } : Messages).Prompt (past ++ [chunk]) all)
    (hall : past ++ [chunk] <+: all) : m.Prompt past all := by
  have hlength := congrArg List.length hcompleted
  rw [List.length_append] at hlength
  have hitems := items_of_next h
  constructor <;> rw [hitems]
  · intro i message n hi
    -- the first messages are those of this read, the others were counted from behind it
    by_cases hlt : i < later.ready.length
    · rw [List.getElem?_append_left (by rwa [List.length_map]), List.getElem?_map,
        List.getElem?_eq_getElem hlt, hreads] at hi
      cases hi
      exact isLeast_read hall (by omega)
    · have hle : later.ready.length ≤ i := Nat.le_of_not_lt hlt
      rw [List.getElem?_append_right (by rwa [List.length_map]), List.length_map] at hi
      have hleast := hp.least _ message n hi
      rwa [hlength, Nat.add_assoc, Nat.add_sub_cancel' hle] at hleast
  · intro cause n hn
    rcases List.mem_append.mp hn with hn | hn
    · obtain ⟨message, -, hmessage⟩ := List.mem_map.mp hn
      cases hmessage
    · exact hp.fault cause n hn
  · exact hp.reads
  · exact hp.ended

theorem prompt (m : Messages) (past : List Bytes) (arrivals : List Arrival)
    (ha : m.arrivals = arrivals) (hd : m.Drained past) : m.Prompt past (past ++ delivered arrivals) := by
  have hnext := m.next_of_read _ hd.sanitizer hd.ready
  rw [ha] at hnext
  fun_induction delivered arrivals generalizing m past with
  | case1 =>
    rw [List.append_nil]
    exact .of_close hd hnext
  | case2 rest =>
    rw [List.append_nil]
    exact .of_close hd hnext
  | case3 cause rest =>
    rw [List.append_nil]
    exact .of_fault hd hnext
  | case4 b chunk rest ih =>
    obtain ⟨hdrained, hcompleted⟩ := hd.take (b :: chunk) rest
    have hrest := ih _ (past ++ [b :: chunk]) rfl hdrained
      (next_of_read _ _ hdrained.sanitizer hdrained.ready)
    have hsplit : past ++ (b :: chunk) :: delivered rest = past ++ [b :: chunk] ++ delivered rest := by
      rw [List.append_assoc, List.singleton_append]
    rw [← hsplit] at hrest
    refine .read hnext hcompleted (congrArg Nat.succ hd.reads) hrest ?_
    rw [hsplit]
    exact List.prefix_append _ _

end Messages

/-- The complete messages in what some reads give. -/
def completedIn (arrivals : List Arrival) : List Bytes :=
  ((slices (delivered arrivals).flatten).filter Slice.isFull).map Slice.bytes

theorem completed_delivered (arrivals : List Arrival) :
    Messages.completed (delivered arrivals) = completedIn arrivals :=
  (feedAll_refines_slices (delivered arrivals)).2.1

/-- The stream gives the messages that are complete in what its reads find, each of them a frame of its
own, and then the fault if there is one. By the time a message is given, the reads made are the fewest
that hold it. A message that is cut off is not given. One read finds the end or the fault; then all has
been given, and no read follows. -/
theorem messages_are_lazy (stream : List Arrival) :
    let found := stream.flatMap reads
    let (items, final) := (Messages.start stream).items
    items.map Prod.fst = (completedIn found).map .ok ++ (failure found).toList.map .error ∧
      (∀ i message n, items[i]? = some (.ok message, n) → IsFrame message ∧
        IsLeast {n | i < (completedIn (found.take n)).length} n) ∧
      (∀ s ∈ slices (delivered found).flatten, s.isFull = false → .ok s.bytes ∉ items.map Prod.fst) ∧
      (∀ cause n, (.error cause, n) ∈ items → n = final.reads) ∧
      final.reads = (delivered found).length + 1 ∧ final.next = (none, final) := by
  intro found
  have hpulled := (Messages.start stream).pulled .start found rfl rfl rfl
  have hprompt := (Messages.start stream).prompt [] found rfl (Messages.drained_start stream)
  have hitems : (Messages.start stream).items.1.map Prod.fst = _ := hpulled.items
  rw [show (Assembler.pushAll (Messages.start stream).assembler _).1 = _ from
    completed_delivered found] at hitems
  have hframes : ∀ message ∈ completedIn found, IsFrame message := by
    intro message hm
    obtain ⟨s, hs, rfl⟩ := List.mem_map.mp hm
    obtain ⟨hs, hfull⟩ := List.mem_filter.mp hs
    exact (isFrame_iff_isFull _ s hs).mpr hfull
  have hgiven (message : Bytes) (hm : .ok message ∈ (Messages.start stream).items.1.map Prod.fst) :
      IsFrame message := by
    rw [hitems] at hm
    rcases List.mem_append.mp hm with hm | hm
    · obtain ⟨other, hother, hsame⟩ := List.mem_map.mp hm
      cases hsame
      exact hframes message hother
    · obtain ⟨cause, -, hcause⟩ := List.mem_map.mp hm
      cases hcause
  refine ⟨hitems, ?_, ?_, hprompt.fault, hprompt.reads, hprompt.ended⟩
  · intro i message n hi
    have hleast := hprompt.least i message n hi
    simp only [← completed_delivered, delivered_take]
    rw [List.nil_append, Messages.completed_nil, List.length_nil] at hleast
    simp only [Nat.zero_add] at hleast
    exact ⟨hgiven message (List.mem_map_of_mem (List.mem_of_getElem? hi)), hleast⟩
  · intro s hs hcut hgives
    have hfull := (isFrame_iff_isFull _ s hs).mp (hgiven _ hgives)
    rw [hcut] at hfull
    cases hfull

end NoiseGate

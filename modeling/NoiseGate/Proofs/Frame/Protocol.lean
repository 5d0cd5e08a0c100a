import NoiseGate.Proofs.Frame.Layout

/-!
# The protocol of segments

Whoever takes the segments of a run one by one relies on their order: noise comes only between
messages, and all pieces of a message but its last are marked incomplete. `Transcript` is this
order. Which header a message has is known from its first piece alone, so a run remembers of the
pieces in flight only that they are a header and a part of its payload.
-/

namespace NoiseGate

open Header Segment

/-- A header that stands in front, and behind it all of its payload and nothing else. -/
def IsFrame (message : Bytes) : Prop :=
  ∃ h, locate message = some h ∧ h.start = 0 ∧ h.frameSize = message.length

/-- A frame without the last bytes of its payload, as many as are owed. The header is all there. -/
def IsCutFrame (part : Bytes) (owed : Nat) : Prop :=
  ∃ message h, locate message = some h ∧ h.start = 0 ∧ h.frameSize = message.length ∧
    part <+: message ∧ part ≠ message ∧ part.length = h.frameSize - owed ∧
    locate part = some h ∧ h.stop ≤ part.length

/-- Segments in the order of the protocol, none of them empty, and among them the pieces of a
message in flight behind everything else. -/
inductive Transcript : List Segment → List Bytes → Prop
  | inFlight (pieces : List Bytes) (hp : ∀ piece ∈ pieces, piece ≠ []) :
      Transcript (pieces.map (frame · false)) pieces
  | noise (run : Bytes) (rest : List Segment) (pieces : List Bytes) (hr : run ≠ [])
      (ht : Transcript rest pieces) : Transcript (noise run :: rest) pieces
  | message (parts : List Bytes) (last : Bytes) (rest : List Segment) (pieces : List Bytes)
      (hp : ∀ part ∈ parts, part ≠ []) (hl : last ≠ []) (hm : IsFrame (parts.flatten ++ last))
      (ht : Transcript rest pieces) :
      Transcript (parts.map (frame · false) ++ frame last true :: rest) pieces

theorem isFrame_spell (digits payload : Bytes) (ha : Announces digits)
    (hp : payload.length = digitsValue digits) : IsFrame (spell digits ++ payload) := by
  have hl := locate_append_spell [] digits payload locate_nil ha
  refine ⟨_, hl, rfl, ?_⟩
  rw [spelledAt_frameSize, List.length_append, spell_length, hp]

theorem isCutFrame_spell (digits payload : Bytes) (owed : Nat) (ha : Announces digits)
    (ho : 0 < owed) (hp : payload.length + owed = digitsValue digits) :
    IsCutFrame (spell digits ++ payload) owed := by
  have hl := locate_append_spell [] digits payload locate_nil ha
  have hlater := locate_append_of_some _ (List.replicate owed 0) _ hl
  have hmore : List.replicate owed (0 : UInt8) ≠ [] := by
    intro h
    rw [List.replicate_eq_nil_iff] at h
    omega
  refine ⟨spell digits ++ payload ++ List.replicate owed 0, _, hlater, rfl, ?_,
    List.prefix_append _ _, ?_, ?_, hl, ?_⟩
  · rw [spelledAt_frameSize]
    simp only [List.length_append, List.length_replicate, spell_length]
    omega
  · intro h
    exact hmore (List.self_eq_append_right.mp h)
  · rw [spelledAt_frameSize, List.length_append, spell_length]
    omega
  · simp [spelledAt]

namespace Transcript

theorem bytes_ne_nil {segments : List Segment} {pieces : List Bytes}
    (ht : Transcript segments pieces) : ∀ s ∈ segments, s.bytes ≠ [] := by
  have hmap (parts : List Bytes) (hp : ∀ part ∈ parts, part ≠ []) :
      ∀ s ∈ parts.map (frame · false), s.bytes ≠ [] := by
    intro s hs
    obtain ⟨part, hpart, rfl⟩ := List.mem_map.mp hs
    exact hp part hpart
  induction ht with
  | inFlight pieces hp => exact hmap pieces hp
  | noise run rest pieces hr _ ih =>
    intro s hs
    rcases List.mem_cons.mp hs with rfl | hs
    · exact hr
    · exact ih s hs
  | message parts last rest pieces hp hl _ _ ih =>
    intro s hs
    rcases List.mem_append.mp hs with hs | hs
    · exact hmap parts hp s hs
    rcases List.mem_cons.mp hs with rfl | hs
    · exact hl
    · exact ih s hs

theorem nil : Transcript [] [] := inFlight [] (by simp)

theorem noiseRun_append {rest : List Segment} {pieces : List Bytes} (run : Bytes)
    (ht : Transcript rest pieces) : Transcript (noiseRun run ++ rest) pieces := by
  cases run with
  | nil => exact ht
  | cons b run => exact noise _ _ _ (List.cons_ne_nil b run) ht

theorem complete {first rest : List Segment} {held pieces : List Bytes}
    (hf : Transcript first held) (last : Bytes) (hl : last ≠ [])
    (hm : IsFrame (held.flatten ++ last)) (hr : Transcript rest pieces) :
    Transcript (first ++ frame last true :: rest) pieces := by
  induction hf with
  | inFlight held hp => exact message held last rest pieces hp hl hm hr
  | noise run first held hrun _ ih => exact noise run _ pieces hrun (ih hm)
  | message parts end_ first held hp he hframe _ ih =>
    rw [List.append_assoc, List.cons_append]
    exact message parts end_ _ pieces hp he hframe (ih hm)

theorem extend {first : List Segment} {held : List Bytes} (hf : Transcript first held)
    (piece : Bytes) (hp : piece ≠ []) :
    Transcript (first ++ [frame piece false]) (held ++ [piece]) := by
  induction hf with
  | inFlight held hheld =>
    have hall : ∀ part ∈ held ++ [piece], part ≠ [] := by
      intro part hpart
      rcases List.mem_append.mp hpart with hpart | hpart
      · exact hheld part hpart
      · exact List.mem_singleton.mp hpart ▸ hp
    have ht := inFlight (held ++ [piece]) hall
    rwa [List.map_append] at ht
  | noise run first held hrun _ ih => exact noise run _ _ hrun ih
  | message parts last first held hparts hl hm _ ih =>
    rw [List.append_assoc, List.cons_append]
    exact message parts last _ _ hparts hl hm ih

theorem append {first rest : List Segment} {pieces : List Bytes} (hf : Transcript first [])
    (hr : Transcript rest pieces) : Transcript (first ++ rest) pieces := by
  generalize hheld : ([] : List Bytes) = held at hf
  induction hf with
  | inFlight held _ =>
    subst hheld
    exact hr
  | noise run first held hrun _ ih => exact noise run _ _ hrun (ih hheld)
  | message parts last first held hp hl hm _ ih =>
    rw [List.append_assoc, List.cons_append]
    exact message parts last _ _ hp hl hm (ih hheld)

end Transcript

namespace Sanitizer

/-- What a state says of the pieces in flight: none while it scans, and otherwise a header with a
part of its payload, of which the owed bytes are missing. -/
def Carries (pieces : List Bytes) : Sanitizer → Prop
  | scanning _ => pieces = []
  | waiting owed _ => ∃ digits payload, Announces digits ∧
      pieces.flatten = spell digits ++ payload ∧ payload.length + owed = digitsValue digits

theorem scan_transcript (buffer : Bytes) :
    ∃ pieces, Transcript (scan buffer).1 pieces ∧ Carries pieces (scan buffer).2 := by
  induction Layout.of_bytes buffer with
  | quiet noise hn =>
    have ht := Transcript.nil.noiseRun_append (noise.take (deadLength noise))
    rw [scan_of_none noise hn]
    rw [List.append_nil] at ht
    exact ⟨[], ht, rfl⟩
  | cut noise digits payload hn ha hp =>
    have hne : spell digits ++ payload ≠ [] :=
      List.append_ne_nil_of_left_ne_nil (spell_ne_nil digits) payload
    have ht := Transcript.inFlight [spell digits ++ payload] (by simpa using hne)
    rw [scan_cut noise digits payload hn ha hp]
    refine ⟨_, ht.noiseRun_append noise, digits, payload, ha, ?_, ?_⟩
    · exact List.flatten_singleton
    · omega
  | message noise digits payload rest hn ha hp hr ih =>
    obtain ⟨pieces, ht, hc⟩ := ih
    have hne : spell digits ++ payload ≠ [] :=
      List.append_ne_nil_of_left_ne_nil (spell_ne_nil digits) payload
    have hm := Transcript.message [] _ _ pieces (by simp) hne (isFrame_spell digits payload ha hp) ht
    rw [scan_message noise digits payload rest hn ha hp, prepend_fst, prepend_snd,
      List.append_assoc]
    exact ⟨pieces, hm.noiseRun_append noise, hc⟩

/-- One chunk continues the transcript, in either state. -/
theorem feed_transcript (s : Sanitizer) (chunk : Bytes) (first : List Segment) (held : List Bytes)
    (hf : Transcript first held) (hc : Carries held s) :
    ∃ pieces, Transcript (first ++ (s.feed chunk).1) pieces ∧ Carries pieces (s.feed chunk).2 := by
  by_cases hchunk : chunk = []
  · subst chunk
    rw [feed_nil, List.append_nil]
    exact ⟨held, hf, hc⟩
  cases s with
  | scanning pending =>
    obtain ⟨pieces, ht, hcarries⟩ := scan_transcript (pending ++ chunk)
    change held = [] at hc
    subst hc
    rw [feed_scanning pending chunk hchunk]
    exact ⟨pieces, hf.append ht, hcarries⟩
  | waiting owed ho =>
    obtain ⟨digits, payload, ha, hheld, howed⟩ := hc
    by_cases hle : owed ≤ chunk.length
    · obtain ⟨pieces, ht, hcarries⟩ := scan_transcript (chunk.drop owed)
      have hlen : (chunk.take owed).length = owed := List.length_take_of_le hle
      have hl : chunk.take owed ≠ [] := by
        intro h
        rw [h, List.length_nil] at hlen
        omega
      have hm : IsFrame (held.flatten ++ chunk.take owed) := by
        rw [hheld, List.append_assoc]
        apply isFrame_spell digits _ ha
        rw [List.length_append, hlen, howed]
      rw [feed_waiting_of_le owed ho chunk hle]
      exact ⟨pieces, hf.complete _ hl hm ht, hcarries⟩
    · have hlt : chunk.length < owed := Nat.lt_of_not_le hle
      rw [feed_waiting_of_lt owed ho chunk hchunk hlt]
      refine ⟨held ++ [chunk], hf.extend chunk hchunk, digits, payload ++ chunk, ha, ?_, ?_⟩
      · rw [List.flatten_append, List.flatten_singleton, hheld, List.append_assoc]
      · rw [List.length_append]
        omega

theorem feedAll_transcript (s : Sanitizer) (chunks : List Bytes) (first : List Segment)
    (held : List Bytes) (hf : Transcript first held) (hc : Carries held s) :
    ∃ pieces, Transcript (first ++ (s.feedAll chunks).1) pieces ∧
      Carries pieces (s.feedAll chunks).2 := by
  induction chunks generalizing s first held with
  | nil =>
    rw [feedAll_nil, List.append_nil]
    exact ⟨held, hf, hc⟩
  | cons chunk chunks ih =>
    obtain ⟨pieces, ht, hcarries⟩ := feed_transcript s chunk first held hf hc
    rw [feedAll_cons, prepend_fst, prepend_snd, ← List.append_assoc]
    exact ih _ _ pieces ht hcarries

/-- The segments of every run keep to the protocol, and every message of it is a frame. There are
pieces in flight behind the last message exactly while a payload is owed, and then they are a frame
that lacks the owed bytes. -/
theorem feedAll_keeps_protocol (chunks : List Bytes) :
    let run := start.feedAll chunks
    (∀ s ∈ run.1, s.bytes ≠ []) ∧ ∃ pieces, Transcript run.1 pieces ∧
      (pieces = [] ∧ run.2.owed = 0 ∨ pieces ≠ [] ∧ IsCutFrame pieces.flatten run.2.owed) := by
  intro run
  obtain ⟨pieces, ht, hc⟩ := feedAll_transcript start chunks [] [] Transcript.nil rfl
  rw [List.nil_append] at ht
  refine ⟨ht.bytes_ne_nil, pieces, ht, ?_⟩
  change Carries pieces run.2 at hc
  cases hs : run.2 with
  | scanning pending =>
    rw [hs] at hc
    exact .inl ⟨hc, rfl⟩
  | waiting owed ho =>
    rw [hs] at hc
    obtain ⟨digits, payload, ha, hflat, howed⟩ := hc
    have hne : pieces ≠ [] := by
      intro h
      rw [h, List.flatten_nil] at hflat
      exact List.append_ne_nil_of_left_ne_nil (spell_ne_nil digits) payload hflat.symm
    rw [hflat]
    exact .inr ⟨hne, isCutFrame_spell digits payload owed ha ho howed⟩

end Sanitizer

end NoiseGate

import NoiseGate.Proofs.Rpc.Outgoing
import NoiseGate.Proofs.Session.Ending

/-!
# Sessions with an echo

A server that copies its input shows the editor what the session made of the editor's own frames.
Noise around the copy is set aside, even where it ends or begins with a part of a header.
-/

namespace NoiseGate

open Header Segment Sanitizer Arrival

/-- The program writes its input between two texts. -/
def Program.Echoes (server : Program) (files : FileTree) (prelude postlude : Bytes) : Prop :=
  ∀ input, (server files input).output = prelude ++ input ++ postlude

theorem Script.echoes (s : Script) (hs : s.echo = true) (files : FileTree) :
    s.program.Echoes files s.prelude s.postlude := by
  intro input
  simp [program, Outcome.output, hs]

namespace Sanitizer

theorem scan_frame (prelude body rest : Bytes) (hn : locate prelude = none)
    (ha : Announces (decimal body.length)) :
    let run := scan (prelude ++ (frameOf body ++ rest))
    Assembler.empty.pushAll run.1 = (frameOf body :: (Assembler.empty.pushAll (scan rest).1).1,
        (Assembler.empty.pushAll (scan rest).1).2) ∧
      run.2.owed = (scan rest).2.owed ∧
      readOff noiseBytes run = prelude ++ readOff noiseBytes (scan rest) :=
  scan_part prelude (decimal body.length) body rest hn ha (digitsValue_decimal body.length).symm

theorem scan_frames (bodies : List Bytes) (postlude : Bytes) (hn : locate postlude = none)
    (ha : ∀ body ∈ bodies, Announces (decimal body.length)) :
    let run := scan (bodies.flatMap frameOf ++ postlude)
    Assembler.empty.pushAll run.1 = (bodies.map frameOf, .empty) ∧ run.2.owed = 0 ∧
      readOff noiseBytes run = postlude := by
  induction bodies with
  | nil => exact scan_quiet postlude hn
  | cons body bodies ih =>
    have hbody : Announces (decimal body.length) := ha body List.mem_cons_self
    obtain ⟨hmessages, howed, hnoise⟩ := ih fun later h => ha later (List.mem_cons_of_mem body h)
    obtain ⟨hfirst, hsame, hbefore⟩ :=
      scan_frame [] body (bodies.flatMap frameOf ++ postlude) locate_nil hbody
    rw [List.flatMap_cons, List.append_assoc]
    refine ⟨?_, hsame.trans howed, hbefore.trans hnoise⟩
    exact hfirst.trans (by rw [hmessages]; rfl)

end Sanitizer

theorem framesRead_frames (bodies : List Bytes) (hb : ∀ body ∈ bodies, body.length ≤ bodyMax) :
    framesRead ((bodies.flatMap frameOf).map .byte) = bodies := by
  let wire : List Signal := (bodies.flatMap frameOf).map .byte
  have hlimit := readFrames_limit (wire.length + bodies.length + 1) wire (by omega)
  have hread := readFrames_frames false (wire.length + bodies.length + 1) bodies hb (by omega)
  rw [framesRead, ← hlimit, hread, List.filterMap_append, List.filterMap_map]
  have hbodies : bodies.filterMap (some ·) = bodies := List.filterMap_some
  exact (List.append_nil _).trans hbodies

theorem mem_of_mem_throughExit (bodies : List Bytes) :
    ∀ body ∈ throughExit bodies, body ∈ bodies := by
  induction bodies with
  | nil => exact fun _ h => h
  | cons first bodies ih =>
    intro body h
    rw [throughExit] at h
    split at h
    · rw [List.mem_singleton.mp h]
      exact List.mem_cons_self
    · rcases List.mem_cons.mp h with rfl | h
      · exact List.mem_cons_self
      · exact List.mem_cons_of_mem first (ih body h)

namespace Forwarded

/-- The bodies that a server is to get of an editor with these bodies. -/
def sent (options : Option Json.Value) (bodies : List Bytes) : List Bytes :=
  bodies.map (outgoing options) ++ if bodies.any isExit then [] else [Rpc.exitBody]

theorem sent_flatMap (options : Option Json.Value) (bodies : List Bytes) :
    (sent options bodies).flatMap frameOf = inputFor options bodies := by
  rw [sent, List.flatMap_append, List.flatMap_map, inputFor]
  cases bodies.any isExit with
  | true => rfl
  | false => simp

theorem sent_ne_nil (options : Option Json.Value) (bodies : List Bytes) :
    sent options bodies ≠ [] := by
  cases bodies with
  | nil => exact List.cons_ne_nil _ _
  | cons body bodies => exact List.cons_ne_nil _ _

theorem announces_sent (options : Option Json.Value) (bodies : List Bytes)
    (hb : ∀ body ∈ bodies, body.length ≤ bodyMax) (ho : ∀ v ∈ options, v.print.length ≤ memoryMax) :
    ∀ body ∈ sent options bodies, Announces (decimal body.length) := by
  intro body h
  rcases List.mem_append.mp h with h | h
  · obtain ⟨original, horiginal, rfl⟩ := List.mem_map.mp h
    exact announces_outgoing options original (hb original horiginal) ho
  · split at h
    · cases h
    · rw [List.mem_singleton.mp h]
      exact announces_exitBody

end Forwarded

theorem relay_frames (stream : List Arrival) (prelude postlude : Bytes) (bodies : List Bytes)
    (hf : Arrival.failure stream = none)
    (hd : (delivered stream).flatten = prelude ++ bodies.flatMap frameOf ++ postlude)
    (hb : bodies ≠ []) (ha : ∀ body ∈ bodies, Announces (decimal body.length))
    (hprelude : locate prelude = none) (hpostlude : locate postlude = none) :
    ∃ stats, (relay stream (.new none false)).1 = .ok stats ∧
      (relay stream (.new none false)).2.outlet.written = bodies.flatMap frameOf ∧
      stats.messages = bodies.length ∧
      stats.noiseBytes + stats.leftover.pending = prelude.length + postlude.length ∧
      stats.leftover.missing = 0 := by
  obtain ⟨body, bodies, rfl⟩ := List.exists_cons_of_ne_nil hb
  let rest := bodies.flatMap frameOf ++ postlude
  let run := start.feedAll (delivered stream)
  have hbody : Announces (decimal body.length) := ha body List.mem_cons_self
  obtain ⟨hmessages, howed, hnoise⟩ :=
    scan_frames bodies postlude hpostlude fun later h => ha later (List.mem_cons_of_mem body h)
  obtain ⟨hfirst, hsame, hbefore⟩ := scan_frame prelude body rest hprelude hbody
  have hwire : (delivered stream).flatten = prelude ++ (frameOf body ++ rest) := by
    rw [hd, List.flatMap_cons, List.append_assoc, List.append_assoc]
  have hassembled : Assembler.empty.pushAll run.1 = ((body :: bodies).map frameOf, .empty) := by
    rw [pushAll_feedAll, hwire, hfirst, hmessages]
    rfl
  have hstate : run.2.owed = 0 := by
    rw [state_feedAll, hwire, hsame]
    exact howed
  have hbytes : run.1.flatMap noiseBytes ++ run.2.pending = prelude ++ postlude := by
    rw [noiseBytes_feedAll, state_feedAll, hwire]
    exact hbefore.trans (congrArg (prelude ++ ·) hnoise)
  have hframes := Assembler.empty.pushAll_bytes run.1
  have hcount := Assembler.empty.length_pushAll run.1
  rw [hassembled] at hframes hcount
  obtain ⟨-, hresult, hwritten, -⟩ := @relay_of_fits stream (.new none false) rfl nofun
  rw [hf] at hresult
  refine ⟨_, hresult, ?_, ?_, ?_, hstate⟩
  · rw [hwritten]
    exact hframes.trans (List.append_nil _)
  · exact hcount.symm.trans (List.length_map _)
  · have hlength := congrArg List.length hbytes
    rwa [List.length_append, List.length_append] at hlength

namespace Session

/-- With a server that copies its input between two texts without a header, the editor gets exactly
what the server got: the frames of the bodies that were forwarded and of the notice to exit, if the
session sent it. These messages are counted, and what is not counted as noise is still pending. -/
theorem echo_is_transparent (server : Program) (files : FileTree) (options : Option Json.Value)
    (prelude postlude : Bytes) (bodies cuts : List Bytes)
    (hserver : server.Echoes files prelude postlude)
    (hprelude : locate prelude = none) (hpostlude : locate postlude = none)
    (hoptions : ∀ v ∈ options, v.print.length ≤ memoryMax)
    (hbodies : ∀ body ∈ bodies, body.length ≤ bodyMax) (hcuts : ∀ cut ∈ cuts, cut ≠ [])
    (hwire : cuts.flatten = ((Outlet.new none false).writeFrames bodies).1.written) :
    let stream := cuts.map Arrival.bytes
    let session := run server files options (some stream) (.new none false)
    let sent := session.forwarded.bodies ++ if session.forwarded.sentExit then [] else [Rpc.exitBody]
    (session.forwarded.bodies = (throughExit bodies).map (Forwarded.outgoing options) ∧
      session.forwarded.input = sent.flatMap frameOf ∧
      session.relay.outlet.written = sent.flatMap frameOf ∧
      ∃ stats, session.result = .ok stats ∧ stats.messages = sent.length ∧
        stats.noiseBytes + stats.leftover.pending = prelude.length + postlude.length ∧
        stats.leftover.missing = 0) ∧
    ∀ s, Relation.ReflTransGen (UndisturbedStep options) (.start stream (.new none false)) s →
      (∃ t, Relation.ReflTransGen (UndisturbedStep options) s t ∧ t.stage = .ended) ∧
      (s.stage = .ended → s.task.writer.outlet.written = session.relay.outlet.written) := by
  intro stream session sent
  have hread : editorBodies (stream.flatMap Arrival.signals) = throughExit bodies := by
    rw [editorBodies, signals_flatten cuts hcuts, hwire, Outlet.writeFrames_written,
      framesRead_frames bodies hbodies]
  have hforwarded : ∀ body ∈ throughExit bodies, body.length ≤ bodyMax :=
    fun body h => hbodies body (mem_of_mem_throughExit bodies body h)
  obtain ⟨hsentBodies, hexit⟩ := Forwarded.ofSignals_bodies options (stream.flatMap Arrival.signals)
  rw [hread] at hsentBodies hexit
  have hsent : sent = Forwarded.sent options (throughExit bodies) := by
    rw [Forwarded.sent, ← hsentBodies, ← hexit]
    rfl
  have hframes : Forwarded.inputFor options (throughExit bodies) = sent.flatMap frameOf := by
    rw [hsent, Forwarded.sent_flatMap]
  have hinput : session.forwarded.input = sent.flatMap frameOf := by
    rw [← hframes, ← hread]
    exact Forwarded.input_ofSignals options _
  obtain ⟨hdelivered, hfailure⟩ := session.outcome.delivered_arrivals
  have houtput : session.outcome.output = prelude ++ sent.flatMap frameOf ++ postlude := by
    rw [← hinput]
    exact hserver _
  have hne : sent ≠ [] := hsent ▸ Forwarded.sent_ne_nil options _
  have hannounces : ∀ body ∈ sent, Announces (decimal body.length) :=
    hsent ▸ Forwarded.announces_sent options _ hforwarded hoptions
  obtain ⟨stats, hstats, hwritten, hmessages, hnoise, hmissing⟩ := relay_frames
    session.outcome.arrivals prelude postlude sent hfailure (hdelivered.trans houtput) hne hannounces
    hprelude hpostlude
  have hresult := session.result_of_relayed stats hstats
  refine ⟨⟨hsentBodies, hinput, hwritten, stats, hresult, hmessages, hnoise, hmissing⟩, ?_⟩
  intro s hpath
  have hfaithful := Faithful.of_path hpath
  refine ⟨hfaithful.exists_ended, fun hended => ?_⟩
  obtain ⟨hreceived, -, -⟩ := hfaithful.of_ended hended
  rw [hreceived, hread, hframes]
  exact hwritten.symm

/-- The two texts make up a header together, a request gets options, and another body looks like a
header. -/
theorem echo_is_transparent_between_halves :
    let prelude := ascii "Content-Length: 9\r\nContent-Length: "
    let postlude := ascii "1\r\n\r\nConte"
    let script : Script := ⟨prelude, true, postlude, some 0⟩
    let files : FileTree := ⟨[], []⟩
    let options := some (Json.Value.object [("trace".toList, .bool true)])
    let request := ascii "\x7b\"method\":\"initialize\",\"params\":\x7b\x7d\x7d"
    let bodies := [request, ascii "Content-Length: 2\r\n\r\n", []]
    let wire := ((Outlet.new none false).writeFrames bodies).1.written
    let cuts := [wire.take 17, wire.drop 17]
    let session := run script.program files options (some (cuts.map .bytes)) (.new none false)
    let sent := session.forwarded.bodies ++ if session.forwarded.sentExit then [] else [Rpc.exitBody]
    locate (prelude ++ postlude) ≠ none ∧ locate prelude = none ∧ locate postlude = none ∧
      cuts.flatten = wire ∧ sent.length = 4 ∧ sent.head? ≠ some request ∧
      session.forwarded.input = sent.flatMap frameOf ∧
      session.relay.outlet.written = sent.flatMap frameOf ∧
      ∃ stats, session.result = .ok stats ∧ stats.messages = sent.length ∧
        stats.noiseBytes + stats.leftover.pending = prelude.length + postlude.length ∧
        stats.leftover.missing = 0 := by
  intro prelude postlude script files options request bodies wire cuts session sent
  have hoptions : ∀ v ∈ options, v.print.length ≤ memoryMax := by
    intro v hv
    rw [← Option.mem_some_iff.mp hv]
    decide
  have hcuts : ∀ cut ∈ cuts, cut ≠ [] := by decide +kernel
  have hprelude : locate prelude = none := by decide
  have hpostlude : locate postlude = none := by decide
  have hwire : cuts.flatten = wire := by decide +kernel
  have hecho := echo_is_transparent script.program files options prelude postlude bodies cuts
    (script.echoes rfl files) hprelude hpostlude hoptions (by decide) hcuts hwire
  exact ⟨by decide, hprelude, hpostlude, hwire, by decide +kernel, by decide +kernel, hecho.1.2⟩

end Session

end NoiseGate

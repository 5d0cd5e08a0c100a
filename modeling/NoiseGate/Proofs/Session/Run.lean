import NoiseGate.Proofs.Frame.Writing
import NoiseGate.Proofs.Relay.Limits
import NoiseGate.Proofs.Session.Bodies

/-!
# Whole sessions

A session whose outlets take everything gives the server the frames of the editor's bodies, and a
notice to exit if none of them is one. Relaying the server's output cannot fail then, whatever the
editor sent.
-/

namespace NoiseGate

namespace Forwarded

/-- The input of a server that is to get these bodies of an editor. -/
def inputFor (options : Option Json.Value) (bodies : List Bytes) : Bytes :=
  bodies.flatMap (fun body => frameOf (outgoing options body)) ++
    if bodies.any isExit then [] else frameOf Rpc.exitBody

theorem input_ofSignals (options : Option Json.Value) (s : List Signal) :
    (ofSignals options s).input = inputFor options (editorBodies s) := by
  obtain ⟨hbodies, hexit⟩ := ofSignals_bodies options s
  have hstart : (Writer.start (.new none false)).drain = ⟨[], true, .new none false⟩ := rfl
  have hsent := Writer.drain_sendAll _ _ (ofSignals options s).bodies Outlet.unlimited_new hstart
  have hunlimited := Outlet.unlimited_foldl_wrote (.new none false) (ofSignals options s).bodies
    Outlet.unlimited_new
  rw [input, Writer.finish_written _ _ _ hunlimited hsent, Outlet.foldl_wrote_written, hbodies,
    hexit, inputFor, List.flatMap_map]
  cases (editorBodies s).any isExit <;> rfl

end Forwarded

namespace Outcome

def output (o : Outcome) : Bytes := (o.writes.filter (·.1 = .output)).flatMap (·.2)

theorem flatten_nonempty (writes : List (Channel × Bytes)) :
    ((writes.filter fun (channel, data) => channel = .output && !data.isEmpty).map (·.2)).flatten =
      (writes.filter (·.1 = .output)).flatMap (·.2) := by
  induction writes with
  | nil => rfl
  | cons write writes ih =>
    obtain ⟨channel, data⟩ := write
    cases channel <;> cases data <;> simpa using ih

theorem delivered_arrivals (o : Outcome) :
    (Arrival.delivered o.arrivals).flatten = o.output ∧ Arrival.failure o.arrivals = none := by
  let written := o.writes.filter fun (channel, data) => channel = .output && !data.isEmpty
  have hne : ∀ chunk ∈ written.map (·.2), chunk ≠ [] := by
    intro chunk hchunk
    obtain ⟨write, hwrite, rfl⟩ := List.mem_map.mp hchunk
    have hkept := (List.mem_filter.mp hwrite).2
    simp only [Bool.and_eq_true, Bool.not_eq_true', List.isEmpty_eq_false_iff] at hkept
    exact hkept.2
  have harrivals : o.arrivals = (written.map (·.2)).map .bytes ++ [] := by
    rw [List.append_nil, List.map_map]
    rfl
  rw [harrivals, Arrival.delivered_chunks_append _ _ hne, Arrival.failure_chunks_append _ _ hne]
  refine ⟨?_, rfl⟩
  rw [Arrival.delivered, List.append_nil]
  exact flatten_nonempty o.writes

end Outcome

namespace Session

theorem result_of_relayed (s : Session) (stats : Stats) (h : s.relayed = .ok stats) :
    s.result = .ok stats := by
  rw [result, h]

end Session

end NoiseGate

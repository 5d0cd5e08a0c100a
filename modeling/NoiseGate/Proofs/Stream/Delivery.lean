import NoiseGate.Stream.Arrival

/-!
# What a stream delivers

A stream delivers the chunks that come before its end or its first fault. To take it in reads of
limited size changes neither the bytes that are delivered nor how the delivery ends.
-/

namespace NoiseGate

theorem flatten_readPieces (data : Bytes) : (readPieces data).flatten = data := by
  fun_induction readPieces data with
  | case1 data hle => exact List.flatten_singleton
  | case2 data hle ih => rw [List.flatten_cons, ih, List.take_append_drop]

theorem ne_nil_of_mem_readPieces (data : Bytes) (hd : data ≠ []) :
    ∀ piece ∈ readPieces data, piece ≠ [] := by
  fun_induction readPieces data with
  | case1 data hle => simpa using hd
  | case2 data hle ih =>
    have hsize : 0 < readSize := by decide
    have hlong : readSize < data.length := Nat.lt_of_not_le hle
    have htake : data.take readSize ≠ [] := by
      intro h
      rw [List.take_eq_nil_iff] at h
      rcases h with h | h
      · omega
      · exact hd h
    have hdrop : data.drop readSize ≠ [] := by
      rw [ne_eq, List.drop_eq_nil_iff]
      exact hle
    intro piece hp
    rcases List.mem_cons.mp hp with rfl | hp
    · exact htake
    · exact ih hdrop piece hp

namespace Arrival

/-- The chunks before the end of the stream or its first fault. -/
def delivered : List Arrival → List Bytes
  | [] => []
  | .bytes [] :: _ => []
  | .fault _ :: _ => []
  | .bytes (b :: chunk) :: rest => (b :: chunk) :: delivered rest

/-- The fault that a stream ends with, unless its end comes first. -/
def failure : List Arrival → Option Fault
  | [] => none
  | .bytes [] :: _ => none
  | .fault cause :: _ => some cause
  | .bytes (_ :: _) :: rest => failure rest

theorem delivered_chunks_append (chunks : List Bytes) (rest : List Arrival)
    (hc : ∀ chunk ∈ chunks, chunk ≠ []) :
    delivered (chunks.map .bytes ++ rest) = chunks ++ delivered rest := by
  induction chunks with
  | nil => rfl
  | cons chunk chunks ih =>
    obtain ⟨b, data, rfl⟩ := List.exists_cons_of_ne_nil (hc chunk List.mem_cons_self)
    have hrest : ∀ other ∈ chunks, other ≠ [] := fun other h => hc other (List.mem_cons_of_mem _ h)
    rw [List.map_cons, List.cons_append, delivered, ih hrest, List.cons_append]

theorem failure_chunks_append (chunks : List Bytes) (rest : List Arrival)
    (hc : ∀ chunk ∈ chunks, chunk ≠ []) : failure (chunks.map .bytes ++ rest) = failure rest := by
  induction chunks with
  | nil => rfl
  | cons chunk chunks ih =>
    obtain ⟨b, data, rfl⟩ := List.exists_cons_of_ne_nil (hc chunk List.mem_cons_self)
    have hrest : ∀ other ∈ chunks, other ≠ [] := fun other h => hc other (List.mem_cons_of_mem _ h)
    rw [List.map_cons, List.cons_append, failure, ih hrest]

theorem reads_delivery (stream : List Arrival) :
    (delivered (stream.flatMap reads)).flatten = (delivered stream).flatten ∧
      failure (stream.flatMap reads) = failure stream := by
  fun_induction delivered stream with
  | case1 => exact ⟨rfl, rfl⟩
  | case2 rest =>
    have hempty : reads (.bytes []) = [.bytes []] := by
      simp [reads, readPieces]
    rw [List.flatMap_cons, hempty]
    exact ⟨rfl, rfl⟩
  | case3 cause rest => exact ⟨rfl, rfl⟩
  | case4 b chunk rest ih =>
    have hpieces := ne_nil_of_mem_readPieces (b :: chunk) (List.cons_ne_nil b chunk)
    rw [List.flatMap_cons, reads, delivered_chunks_append _ _ hpieces,
      failure_chunks_append _ _ hpieces, List.flatten_append, flatten_readPieces, ih.1,
      List.flatten_cons]
    exact ⟨rfl, ih.2⟩

end Arrival

end NoiseGate

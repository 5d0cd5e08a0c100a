import NoiseGate.Proofs.Frame.Merging

/-!
# Assembled messages

An assembler gives one message for each segment that completes one, and loses no byte of any. What it
holds in the end are the pieces that came behind the last of these segments.
-/

namespace NoiseGate

open Segment

namespace Segment

def completes : Segment → Bool
  | frame _ complete => complete
  | noise _ => false

end Segment

namespace Assembler

theorem length_pushAll (a : Assembler) (segments : List Segment) :
    (a.pushAll segments).1.length = segments.countP Segment.completes := by
  induction segments generalizing a with
  | nil => rfl
  | cons s segments ih =>
    match s with
    | .noise run => exact ih a
    | .frame data false => exact ih _
    | .frame data true =>
      have hone : Segment.completes (.frame data true) = true := rfl
      rw [pushAll_end, List.length_cons, ih, List.countP_cons_of_pos hone]

/-- No byte of a message is lost between the pieces held, the messages given and what is held then. -/
theorem pushAll_bytes (a : Assembler) (segments : List Segment) :
    a.held ++ segments.flatMap frameBytes =
      (a.pushAll segments).1.flatten ++ (a.pushAll segments).2.held := by
  induction segments generalizing a with
  | nil => exact List.append_nil _
  | cons s segments ih =>
    match s with
    | .noise run => exact ih a
    | .frame data false =>
      rw [List.flatMap_cons, ← List.append_assoc]
      exact ih ⟨a.held ++ data⟩
    | .frame data true =>
      have hrest : segments.flatMap frameBytes = _ := ih empty
      rw [List.flatMap_cons, hrest, pushAll_end, List.flatten_cons, List.append_assoc,
        List.append_assoc]
      rfl

theorem pushAll_append (a : Assembler) (first rest : List Segment) :
    a.pushAll (first ++ rest) = ((a.pushAll first).1 ++ ((a.pushAll first).2.pushAll rest).1,
      ((a.pushAll first).2.pushAll rest).2) := by
  induction first generalizing a with
  | nil => rfl
  | cons s first ih => simp [pushAll, ih]

theorem pushAll_pieces (a : Assembler) (pieces : List Bytes) (rest : List Segment) :
    a.pushAll (pieces.map (frame · false) ++ rest) =
      Assembler.pushAll ⟨a.held ++ pieces.flatten⟩ rest := by
  induction pieces generalizing a with
  | nil => simp
  | cons piece pieces ih =>
    rw [List.map_cons, List.cons_append, pushAll_piece, ih, List.flatten_cons, List.append_assoc]

end Assembler

end NoiseGate

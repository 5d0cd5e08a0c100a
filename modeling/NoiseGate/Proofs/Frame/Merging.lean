import NoiseGate.Frame.Segment

/-!
# Merged segments

How a stream is cut into chunks shows in its segments, as runs of noise and messages come in
pieces. `merged` joins the pieces. Whatever depends only on the bytes and on where messages end is
the same before and after: the bytes of the frames, those of the noise, and what an assembler
makes of the segments.
-/

namespace NoiseGate

namespace Segment

def frameBytes : Segment → Bytes
  | frame b _ => b
  | noise _ => []

def noiseBytes : Segment → Bytes
  | frame _ _ => []
  | noise b => b

/-- Puts a segment in front of others. Noise joins the noise behind it, and an unfinished piece of
a message joins the piece behind it. -/
def join : Segment → List Segment → List Segment
  | noise a, noise b :: rest => noise (a ++ b) :: rest
  | frame a false, frame b complete :: rest => frame (a ++ b) complete :: rest
  | s, rest => s :: rest

/-- One segment for each run of noise, and one for all pieces of a message. -/
def merged (segments : List Segment) : List Segment := segments.foldr join []

@[simp] theorem merged_nil : merged [] = [] := rfl

@[simp] theorem merged_cons (s : Segment) (segments : List Segment) :
    merged (s :: segments) = join s (merged segments) := rfl

theorem merged_append_congr (first segments segments' : List Segment)
    (h : merged segments = merged segments') :
    merged (first ++ segments) = merged (first ++ segments') := by
  simp only [merged, List.foldr_append] at h ⊢
  rw [h]

theorem join_noise_noise (a b : Bytes) (rest : List Segment) :
    join (noise a) (join (noise b) rest) = join (noise (a ++ b)) rest := by
  cases rest with
  | nil => rfl
  | cons s rest => cases s <;> simp [join]

theorem join_frame_frame (a b : Bytes) (complete : Bool) (rest : List Segment) :
    join (frame a false) (join (frame b complete) rest) = join (frame (a ++ b) complete) rest := by
  cases rest with
  | nil => cases complete <;> rfl
  | cons s rest => cases s <;> cases complete <;> simp [join]

theorem flatMap_noiseRun (f : Segment → Bytes) (hf : ∀ b, f (noise b) = b) (run : Bytes) :
    (noiseRun run).flatMap f = run := by
  cases run with
  | nil => rfl
  | cons b run => simp [noiseRun, hf]

theorem frameBytes_noiseRun (run : Bytes) : (noiseRun run).flatMap frameBytes = [] := by
  cases run <;> rfl

theorem merged_noiseRun_append (a b : Bytes) (segments : List Segment) :
    merged (noiseRun (a ++ b) ++ segments) = merged (noiseRun a ++ (noiseRun b ++ segments)) := by
  cases a with
  | nil => rfl
  | cons x a =>
    cases b with
    | nil => simp [noiseRun]
    | cons y b =>
      change join (noise ((x :: a) ++ y :: b)) (merged segments) = _
      rw [← join_noise_noise]
      rfl

theorem merged_frame_frame (a b : Bytes) (complete : Bool) (segments : List Segment) :
    merged (frame a false :: frame b complete :: segments) =
      merged (frame (a ++ b) complete :: segments) :=
  join_frame_frame a b complete (merged segments)

private theorem flatMap_join (f : Segment → Bytes)
    (hnoise : ∀ a b, f (noise (a ++ b)) = f (noise a) ++ f (noise b))
    (hframe : ∀ a b complete, f (frame (a ++ b) complete) = f (frame a false) ++ f (frame b complete))
    (s : Segment) (rest : List Segment) : (join s rest).flatMap f = f s ++ rest.flatMap f := by
  unfold join
  split
  · simp [hnoise]
  · simp [hframe]
  · rfl

private theorem flatMap_merged (f : Segment → Bytes)
    (hnoise : ∀ a b, f (noise (a ++ b)) = f (noise a) ++ f (noise b))
    (hframe : ∀ a b complete, f (frame (a ++ b) complete) = f (frame a false) ++ f (frame b complete))
    (segments : List Segment) : (merged segments).flatMap f = segments.flatMap f := by
  induction segments with
  | nil => rfl
  | cons s segments ih =>
    rw [merged_cons, flatMap_join f hnoise hframe, ih, List.flatMap_cons]

theorem frameBytes_merged (segments : List Segment) :
    (merged segments).flatMap frameBytes = segments.flatMap frameBytes :=
  flatMap_merged frameBytes (fun _ _ => rfl) (fun _ _ _ => rfl) segments

theorem noiseBytes_merged (segments : List Segment) :
    (merged segments).flatMap noiseBytes = segments.flatMap noiseBytes :=
  flatMap_merged noiseBytes (fun _ _ => rfl) (fun _ _ _ => rfl) segments

example :
    merged [noise [1], noise [2], frame [3] false, frame [4] true, frame [5] true, frame [6] false] =
      [noise [1, 2], frame [3, 4] true, frame [5] true, frame [6] false] := by decide

end Segment

namespace Assembler

open Segment

@[simp] theorem pushAll_nil (a : Assembler) : a.pushAll [] = ([], a) := rfl

@[simp] theorem pushAll_noise (a : Assembler) (b : Bytes) (rest : List Segment) :
    a.pushAll (noise b :: rest) = a.pushAll rest := rfl

@[simp] theorem pushAll_piece (a : Assembler) (b : Bytes) (rest : List Segment) :
    a.pushAll (frame b false :: rest) = Assembler.pushAll ⟨a.held ++ b⟩ rest := rfl

@[simp] theorem pushAll_end (a : Assembler) (b : Bytes) (rest : List Segment) :
    a.pushAll (frame b true :: rest) =
      ((a.held ++ b) :: (empty.pushAll rest).1, (empty.pushAll rest).2) := rfl

theorem pushAll_noiseRun_append (a : Assembler) (run : Bytes) (rest : List Segment) :
    a.pushAll (noiseRun run ++ rest) = a.pushAll rest := by
  cases run <;> rfl

theorem pushAll_noiseRun (a : Assembler) (run : Bytes) : a.pushAll (noiseRun run) = ([], a) := by
  cases run <;> rfl

theorem pushAll_join (a : Assembler) (s : Segment) (rest : List Segment) :
    a.pushAll (join s rest) = a.pushAll (s :: rest) := by
  unfold join
  split
  · rfl
  · rename_i b complete rest
    cases complete <;> simp [List.append_assoc]
  · rfl

theorem pushAll_cons_congr (s : Segment) (segments segments' : List Segment)
    (h : ∀ a : Assembler, a.pushAll segments = a.pushAll segments') (a : Assembler) :
    a.pushAll (s :: segments) = a.pushAll (s :: segments') := by
  simp only [pushAll, h]

theorem pushAll_merged (a : Assembler) (segments : List Segment) :
    a.pushAll (merged segments) = a.pushAll segments := by
  induction segments generalizing a with
  | nil => rfl
  | cons s segments ih =>
    rw [merged_cons, pushAll_join]
    exact pushAll_cons_congr s _ _ ih a

end Assembler

end NoiseGate

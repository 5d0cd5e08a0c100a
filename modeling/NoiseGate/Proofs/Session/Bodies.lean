import NoiseGate.Server.Session

/-!
# The editor's bodies

The bodies that count of an editor's stream are those that the strict reader returns before it ends
or fails, and of these all up to a notice to exit. A session forwards these bodies and no others.
-/

namespace NoiseGate

/-- The bodies that the reader returns, read after read, before it ends or fails. -/
def framesRead (s : List Signal) : List Bytes :=
  (readFrames false (s.length + 1) s).filterMap fun result => result.toOption.join

/-- Bodies through the first notice to exit. -/
def throughExit : List Bytes → List Bytes
  | [] => []
  | body :: rest => if Forwarded.isExit body then [body] else body :: throughExit rest

/-- What an editor wants the server to get. -/
def editorBodies (s : List Signal) : List Bytes := throughExit (framesRead s)

theorem readFrames_limit (limit : Nat) (s : List Signal) (hl : s.length < limit) :
    readFrames false limit s = readFrames false (s.length + 1) s := by
  induction hn : s.length using Nat.strongRecOn generalizing s limit with
  | ind n ih =>
    obtain ⟨more, rfl⟩ := Nat.exists_eq_add_one.mpr (Nat.zero_lt_of_lt hl)
    subst hn
    rw [readFrames, readFrames]
    split
    · rfl
    · rename_i body rest hread
      -- a frame that was read took a part of the stream, so the limit outlasts the rest
      have hlt := readFrame_length_lt hread
      have hmore : rest.length < more := by omega
      rw [ih rest.length hlt more rest hmore rfl, ih rest.length hlt s.length rest hlt rfl]
    · rfl

theorem framesRead_of_body {s rest : List Signal} {body : Bytes}
    (h : readFrame s = (.ok (some body), rest)) : framesRead s = body :: framesRead rest := by
  have hlimit := readFrames_limit s.length rest (readFrame_length_lt h)
  rw [framesRead, readFrames, h]
  simp only [hlimit]
  rfl

theorem framesRead_of_end {s rest : List Signal} (h : readFrame s = (.ok none, rest)) :
    framesRead s = [] := by
  rw [framesRead, readFrames, h]
  rfl

theorem framesRead_of_error {s rest : List Signal} {e : ReadError}
    (h : readFrame s = (.error e, rest)) : framesRead s = [] := by
  rw [framesRead, readFrames, h]
  rfl

theorem editorBodies_of_body {s rest : List Signal} {body : Bytes}
    (h : readFrame s = (.ok (some body), rest)) :
    editorBodies s = if Forwarded.isExit body then [body] else body :: editorBodies rest := by
  rw [editorBodies, framesRead_of_body h]
  rfl

theorem editorBodies_of_end {s rest : List Signal} (h : readFrame s = (.ok none, rest)) :
    editorBodies s = [] := by
  rw [editorBodies, framesRead_of_end h]
  rfl

theorem editorBodies_of_error {s rest : List Signal} {e : ReadError}
    (h : readFrame s = (.error e, rest)) : editorBodies s = [] := by
  rw [editorBodies, framesRead_of_error h]
  rfl

namespace Forwarded

theorem ofSignals_bodies (options : Option Json.Value) (s : List Signal) :
    (ofSignals options s).bodies = (editorBodies s).map (outgoing options) ∧
      (ofSignals options s).sentExit = (editorBodies s).any isExit := by
  fun_induction ofSignals options s with
  | case1 s e rest hread =>
    rw [editorBodies_of_error hread]
    exact ⟨rfl, rfl⟩
  | case2 s rest hread =>
    rw [editorBodies_of_end hread]
    exact ⟨rfl, rfl⟩
  | case3 s body rest hread hexit =>
    rw [editorBodies_of_body hread, if_pos hexit]
    exact ⟨rfl, by simp [hexit]⟩
  | case4 s body rest hread hexit later ih =>
    rw [editorBodies_of_body hread, if_neg hexit]
    exact ⟨by simpa using ih.1, by simpa [hexit] using ih.2⟩

end Forwarded

end NoiseGate

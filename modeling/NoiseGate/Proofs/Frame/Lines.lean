import NoiseGate.Proofs.Frame.Grammar

/-!
# Taking a line

A line is taken through its line feed. The end of the stream cuts it short, and a fault loses it.
Whatever happens, what is taken and what is left make up the stream.
-/

namespace NoiseGate

/-- What a stream gives when a line is taken from it, and what it leaves. -/
inductive TakesLine : List Signal → Except Fault Bytes → List Signal → Prop
  | fed (line : Bytes) (rest : List Signal) (h : IsLine line) :
      TakesLine (line.map .byte ++ rest) (.ok line) rest
  | cut (line : Bytes) (rest : List Signal) (h : 10 ∉ line) :
      TakesLine (line.map .byte ++ .finish :: rest) (.ok line) rest
  | last (line : Bytes) (h : 10 ∉ line) : TakesLine (line.map .byte) (.ok line) []
  | lost (line : Bytes) (cause : Fault) (rest : List Signal) (h : 10 ∉ line) :
      TakesLine (line.map .byte ++ .fault cause :: rest) (.error cause) rest

theorem exists_front (s : List Signal) : ∃ (data : Bytes) (rest : List Signal),
    s = data.map .byte ++ rest ∧ 10 ∉ data ∧ ∀ b, rest.head? = some (.byte b) → b = 10 := by
  induction s with
  | nil => exact ⟨[], [], rfl, by simp, by simp⟩
  | cons signal s ih =>
    cases signal with
    | finish => exact ⟨[], .finish :: s, rfl, by simp, by simp⟩
    | fault cause => exact ⟨[], .fault cause :: s, rfl, by simp, by simp⟩
    | byte b =>
      by_cases hb : b = 10
      · exact ⟨[], .byte b :: s, rfl, by simp, by simpa using hb⟩
      · obtain ⟨data, rest, rfl, hdata, hrest⟩ := ih
        exact ⟨b :: data, rest, rfl, List.not_mem_cons_of_ne_of_not_mem (Ne.symm hb) hdata, hrest⟩

theorem takesLine_takeLine (s : List Signal) : TakesLine s (takeLine [] s).1 (takeLine [] s).2 := by
  obtain ⟨data, rest, rfl, hdata, hrest⟩ := exists_front s
  rw [takeLine_bytes [] data rest hdata, List.append_nil]
  match rest with
  | [] =>
    rw [takeLine, List.reverse_reverse, List.append_nil]
    exact .last data hdata
  | .finish :: rest =>
    rw [takeLine, List.reverse_reverse]
    exact .cut data rest hdata
  | .fault cause :: rest =>
    rw [takeLine]
    exact .lost data cause rest hdata
  | .byte b :: rest =>
    have hb : b = 10 := hrest b rfl
    subst hb
    have hline := TakesLine.fed (data ++ [10]) rest ⟨data, rfl, hdata⟩
    rw [takeLine, if_pos rfl, List.reverse_cons, List.reverse_reverse]
    rwa [List.map_append, List.append_assoc] at hline

theorem TakesLine.takeLine_eq {s rest : List Signal} {result : Except Fault Bytes}
    (h : TakesLine s result rest) : takeLine [] s = (result, rest) := by
  cases h with
  | fed line rest h =>
    obtain ⟨front, rfl, hfront⟩ := h
    rw [List.map_append, List.append_assoc]
    exact takeLine_line [] front rest hfront
  | cut line rest h =>
    rw [takeLine_bytes [] line _ h, List.append_nil, takeLine, List.reverse_reverse]
  | last line h =>
    have hbytes := takeLine_bytes [] line [] h
    rw [List.append_nil, List.append_nil, takeLine, List.reverse_reverse] at hbytes
    exact hbytes
  | lost line cause rest h => rw [takeLine_bytes [] line _ h, takeLine]

end NoiseGate

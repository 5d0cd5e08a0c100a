import NoiseGate.Proofs.Frame.Agreement
import NoiseGate.Proofs.Frame.Buffering
import NoiseGate.Proofs.Frame.Writing
import NoiseGate.Proofs.Text.Decimal

/-!
# Bodies on the wire

A frame that is written has a header that is spelled by the decimal of its length. The strict reader
takes the bodies of written frames back in order, behind a buffer too, and the way in which a stream
was cut shows in none of its reads.
-/

namespace NoiseGate

open Header

theorem frameOf_eq_spell (body : Bytes) : frameOf body = spell (decimal body.length) ++ body := rfl

def lengthPlaces : Nat := 20

theorem announces_decimal (n : Nat) (hn : Header.sizeOf lengthPlaces + n ≤ wordMax) :
    Announces (decimal n) := by
  have hword : wordMax < Nat.pow 10 lengthPlaces := by decide
  have hn' : n ≤ wordMax := by omega
  have hlength : (decimal n).length ≤ lengthPlaces :=
    decimal_length_le n 19 (Nat.lt_of_le_of_lt hn' hword)
  have hsize : Header.sizeOf (decimal n).length ≤ Header.sizeOf lengthPlaces := by
    unfold Header.sizeOf
    omega
  refine ⟨decimal_ne_nil n, isDigit_decimal n, ?_⟩
  rw [digitsValue_decimal]
  omega

theorem announces_body (body : Bytes) (hb : body.length ≤ bodyMax) :
    Announces (decimal body.length) := by
  have hfits : Header.sizeOf lengthPlaces + bodyMax ≤ wordMax := by decide
  exact announces_decimal body.length (by omega)

theorem readFrames_frames (keepGoing : Bool) (limit : Nat) (bodies : List Bytes)
    (hb : ∀ body ∈ bodies, body.length ≤ bodyMax) (hl : bodies.length < limit) :
    readFrames keepGoing limit ((bodies.flatMap frameOf).map .byte) =
      bodies.map (fun body => .ok (some body)) ++ [.ok none] := by
  induction bodies generalizing limit with
  | nil =>
    obtain ⟨more, rfl⟩ := Nat.exists_eq_add_one.mpr hl
    exact readFrames_nil keepGoing more
  | cons body bodies ih =>
    obtain ⟨more, rfl⟩ := Nat.exists_eq_add_one.mpr (Nat.zero_lt_of_lt hl)
    have hbody : body.length ≤ bodyMax := hb body List.mem_cons_self
    have hrest : ∀ later ∈ bodies, later.length ≤ bodyMax :=
      fun later h => hb later (List.mem_cons_of_mem body h)
    have hvalue := digitsValue_decimal body.length
    have hmax : digitsValue (decimal body.length) ≤ bodyMax := by rwa [hvalue]
    rw [List.flatMap_cons, List.map_append, frameOf_eq_spell,
      readFrames_frame keepGoing more _ body _ (announces_body body hbody) hvalue.symm hmax,
      ih more hrest (Nat.lt_of_succ_lt_succ hl)]
    rfl

namespace Outlet

theorem writeFrames_of_unlimited (o : Outlet) (bodies : List Bytes) (ho : o.Unlimited) :
    o.writeFrames bodies = (bodies.foldl wrote o, bodies.map fun _ => none) := by
  induction bodies generalizing o with
  | nil => rfl
  | cons body bodies ih =>
    rw [writeFrames, o.writeFrame_of_unlimited body ho]
    dsimp only
    rw [ih (o.wrote body) (o.unlimited_wrote body ho)]
    rfl

theorem writeFrames_written (bodies : List Bytes) :
    ((new none false).writeFrames bodies).1.written = bodies.flatMap frameOf := by
  rw [writeFrames_of_unlimited _ _ unlimited_new, foldl_wrote_written]
  rfl

end Outlet

namespace Buffered

theorem readFrames_start (keepGoing : Bool) (limit : Nat) (stream : List Arrival) :
    readFrames keepGoing limit (start stream) =
      NoiseGate.readFrames keepGoing limit (stream.flatMap Arrival.signals) :=
  (readFrames_signals keepGoing limit (start stream)).symm

/-- Bodies that are written come back in order, however their frames are cut on the way, and then
the stream ends. What a reader with a buffer gives is what a reader of single bytes gives, so of any
stream at all, and with all errors, it gives the same for every way of cutting it. -/
theorem readFrames_of_cuts :
    (∀ bodies cuts : List Bytes, (∀ body ∈ bodies, body.length ≤ bodyMax) →
      (∀ cut ∈ cuts, cut ≠ []) →
      cuts.flatten = ((Outlet.new none false).writeFrames bodies).1.written →
      ∀ keepGoing limit, bodies.length < limit →
        readFrames keepGoing limit (start (cuts.map .bytes)) =
          bodies.map (fun body => .ok (some body)) ++ [.ok none]) ∧
    (∀ keepGoing limit stream, readFrames keepGoing limit (start stream) =
      NoiseGate.readFrames keepGoing limit (stream.flatMap Arrival.signals)) ∧
    ∀ cuts cuts' : List Bytes, (∀ cut ∈ cuts, cut ≠ []) → (∀ cut ∈ cuts', cut ≠ []) →
      cuts.flatten = cuts'.flatten → ∀ keepGoing limit,
        readFrames keepGoing limit (start (cuts.map .bytes)) =
          readFrames keepGoing limit (start (cuts'.map .bytes)) := by
  refine ⟨?_, readFrames_start, ?_⟩
  · intro bodies cuts hb hc hcuts keepGoing limit hl
    rw [readFrames_start, signals_flatten cuts hc, hcuts, Outlet.writeFrames_written]
    exact readFrames_frames keepGoing limit bodies hb hl
  · intro cuts cuts' hc hc' hflat keepGoing limit
    rw [readFrames_start, readFrames_start, signals_flatten cuts hc, signals_flatten cuts' hc', hflat]

/-- A body that looks like a header, an empty one and one that is no text, cut inside a header and
inside a body; and a stream without a length, cut inside a character and at the end of a line. -/
theorem readFrames_of_cuts_inside :
    let bodies := [ascii "Content-Length: 9\r\n\r\n", [], [255, 10, 128]]
    let wire := ((Outlet.new none false).writeFrames bodies).1.written
    let cuts := [wire.take 17, (wire.drop 17).take 9, wire.drop 26]
    let malformed := [[120, 58, 195], [169, 10], [13], [10, 255, 10]]
    cuts.flatten = wire ∧ (∀ cut ∈ cuts, cut ≠ []) ∧
    readFrames false 4 (start (cuts.map .bytes)) =
      [.ok (some (ascii "Content-Length: 9\r\n\r\n")), .ok (some []), .ok (some [255, 10, 128]),
        .ok none] ∧
    readFrames true 9 (start (malformed.map .bytes)) =
      readFrames true 9 (start [.bytes malformed.flatten]) := by
  intro bodies wire cuts malformed
  have hcuts : cuts.flatten = wire := by decide +kernel
  have hne : ∀ cut ∈ cuts, cut ≠ [] := by decide +kernel
  obtain ⟨hread, _, hsame⟩ := readFrames_of_cuts
  refine ⟨hcuts, hne, hread bodies cuts (by decide) hne hcuts false 4 (by decide), ?_⟩
  exact hsame malformed [malformed.flatten] (by decide) (by decide) (by decide) true 9

end Buffered

end NoiseGate

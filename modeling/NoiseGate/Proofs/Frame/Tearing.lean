import Mathlib.Data.List.Infix
import NoiseGate.Frame.Writer
import NoiseGate.Proofs.Stream.Room

/-!
# Torn frames

Frames that are written to an outlet with limited room come out as the first bytes of all of them.
The limit tears one frame at most. Its error tells whether the header went out whole, and every later
frame is tried and fails at its header without leaving a byte.
-/

namespace NoiseGate

namespace Outlet

theorem headerFor_length_pos (body : Bytes) : 0 < (headerFor body).length := by
  have htoken : 0 < Header.token.length := by decide
  simp only [headerFor, List.length_append]
  omega

/-- How the frame of a body fails where there is room for too few bytes of it. -/
def tear (room : Nat) (body : Bytes) : WriteError :=
  if room < (headerFor body).length then .header .brokenPipe else .body .brokenPipe

theorem writeFrame_of_fits (o : Outlet) (body : Bytes) (hf : o.flushFails = false)
    (h : o.Fits (frameOf body).length) :
    o.writeFrame body = ({ o.took (frameOf body) with flushes := o.flushes + 1 }, none) := by
  rw [frameOf, List.length_append] at h
  have hheader := o.write_of_fits (headerFor body) (h.of_le (Nat.le_add_right _ _))
  have hbody := (o.took (headerFor body)).write_of_fits body h.took
  rw [writeFrame, hheader]
  dsimp only
  rw [hbody, took_took]
  simp [flush, took, hf, frameOf]

theorem writeFrame_of_lt (o : Outlet) (body : Bytes) {room : Nat} (hr : o.room = some room)
    (hlt : room < (frameOf body).length) :
    o.writeFrame body = (o.filled ((frameOf body).take room), some (tear room body)) := by
  by_cases hheader : room < (headerFor body).length
  · have hcut : (frameOf body).take room = (headerFor body).take room :=
      List.take_append_of_le_length (Nat.le_of_lt hheader)
    rw [writeFrame, o.write_of_lt _ hr hheader, hcut, tear, if_pos hheader]
  · have hwhole : (headerFor body).length ≤ room := Nat.le_of_not_lt hheader
    have hroom : (o.took (headerFor body)).room = some (room - (headerFor body).length) := by
      simp [took, hr]
    have hrest : room - (headerFor body).length < body.length := by
      rw [frameOf, List.length_append] at hlt
      omega
    have hcut : (frameOf body).take room =
        headerFor body ++ body.take (room - (headerFor body).length) := by
      rw [frameOf, List.take_append, List.take_of_length_le hwhole]
    rw [writeFrame, o.write_of_fits _ (o.fits_of_le hr hwhole)]
    dsimp only
    rw [write_of_lt _ _ hroom hrest, hcut, tear, if_neg hheader]
    simp [filled, took, List.append_assoc]

theorem writeFrames_cons (o : Outlet) (body : Bytes) (bodies : List Bytes) :
    o.writeFrames (body :: bodies) =
      (((o.writeFrame body).1.writeFrames bodies).1,
        (o.writeFrame body).2 :: ((o.writeFrame body).1.writeFrames bodies).2) := rfl

/-- What is answered for a body whose frame comes behind those of others. -/
def verdict (room : Nat) (before : List Bytes) (body : Bytes) : Option WriteError :=
  let reached := (before.flatMap frameOf).length
  if reached + (frameOf body).length ≤ room then none else some (tear (room - reached) body)

theorem verdict_cons_of_le {room : Nat} {first : Bytes} (before : List Bytes)
    (hle : (frameOf first).length ≤ room) :
    verdict room (first :: before) = verdict (room - (frameOf first).length) before := by
  funext body
  have hiff : (frameOf first).length + (before.flatMap frameOf).length + (frameOf body).length ≤ room ↔
      (before.flatMap frameOf).length + (frameOf body).length ≤ room - (frameOf first).length := by
    omega
  simp only [verdict, List.flatMap_cons, List.length_append, Nat.sub_sub, hiff]

theorem verdict_cons_of_lt {room : Nat} {first : Bytes} (before : List Bytes)
    (hlt : room < (frameOf first).length) : verdict room (first :: before) = verdict 0 before := by
  funext body
  have hpos := headerFor_length_pos body
  have hframe : (headerFor body).length ≤ (frameOf body).length := by
    simp only [frameOf, List.length_append]
    omega
  have hfull : room - ((first :: before).flatMap frameOf).length = 0 := by
    rw [List.flatMap_cons, List.length_append]
    omega
  simp only [verdict, hfull, Nat.zero_sub]
  rw [if_neg, if_neg]
  · omega
  · rw [List.flatMap_cons, List.length_append]
    omega

/-- Every body is answered for, and the bytes that went out are the first ones of all frames. -/
theorem writeFrames_of_room (o : Outlet) (bodies : List Bytes) (hf : o.flushFails = false) {room : Nat}
    (hr : o.room = some room) :
    (o.writeFrames bodies).1.written = o.written ++ (bodies.flatMap frameOf).take room ∧
      (o.writeFrames bodies).2.length = bodies.length ∧
      ∀ i, (o.writeFrames bodies).2[i]? = bodies[i]?.map (verdict room (bodies.take i)) := by
  induction bodies generalizing o room with
  | nil => simp [writeFrames]
  | cons body bodies ih =>
    rw [writeFrames_cons]
    by_cases hle : (frameOf body).length ≤ room
    · let later : Outlet := { o.took (frameOf body) with flushes := o.flushes + 1 }
      have hwrite : o.writeFrame body = (later, none) :=
        o.writeFrame_of_fits body hf (o.fits_of_le hr hle)
      have hroom : later.room = some (room - (frameOf body).length) := by
        simp [later, took, hr]
      obtain ⟨hwritten, hlength, hresults⟩ := ih later hf hroom
      rw [hwrite]
      refine ⟨?_, congrArg Nat.succ hlength, ?_⟩
      · rw [hwritten, List.flatMap_cons, List.take_append, List.take_of_length_le hle,
          ← List.append_assoc]
        rfl
      · intro i
        cases i with
        | zero => simp [verdict, hle]
        | succ i =>
          rw [List.getElem?_cons_succ, List.getElem?_cons_succ, List.take_succ_cons,
            verdict_cons_of_le _ hle]
          exact hresults i
    · have hlt : room < (frameOf body).length := Nat.lt_of_not_le hle
      obtain ⟨hwritten, hlength, hresults⟩ := ih (o.filled ((frameOf body).take room)) hf rfl
      rw [o.writeFrame_of_lt body hr hlt]
      refine ⟨?_, congrArg Nat.succ hlength, ?_⟩
      · rw [hwritten, List.flatMap_cons, List.take_append_of_le_length (Nat.le_of_lt hlt),
          List.take_zero, List.append_nil]
        rfl
      · intro i
        cases i with
        | zero => simp [verdict, hle]
        | succ i =>
          rw [List.getElem?_cons_succ, List.getElem?_cons_succ, List.take_succ_cons,
            verdict_cons_of_lt _ hlt]
          exact hresults i

theorem verdict_eq_none_iff (room : Nat) (before : List Bytes) (body : Bytes) :
    verdict room before body = none ↔ ((before ++ [body]).flatMap frameOf).length ≤ room := by
  simp [verdict]

theorem verdict_eq_some (room : Nat) (before : List Bytes) (body : Bytes) (e : WriteError)
    (h : verdict room before body = some e) :
    e = if room < (before.flatMap frameOf).length + (headerFor body).length then
      .header .brokenPipe else .body .brokenPipe := by
  have hpos := headerFor_length_pos body
  have hiff : room - (before.flatMap frameOf).length < (headerFor body).length ↔
      room < (before.flatMap frameOf).length + (headerFor body).length := by omega
  simp only [verdict, tear, hiff] at h
  split at h
  · cases h
  · exact (Option.some.inj h).symm

theorem flush_flushes (o : Outlet) :
    o.flush.1.flushes = o.flushes + if o.flush.2 = none then 1 else 0 := by
  cases hf : o.flushFails <;> simp [flush, hf]

theorem writeFrame_flushes (o : Outlet) (body : Bytes) :
    (o.writeFrame body).1.flushes = o.flushes + if (o.writeFrame body).2 = none then 1 else 0 := by
  have hheader := o.write_flushes (headerFor body)
  rcases hwrite : o.write (headerFor body) with ⟨behind, _ | cause⟩ <;> rw [hwrite] at hheader
  · have hbody := behind.write_flushes body
    rcases hwrite' : behind.write body with ⟨later, _ | cause⟩ <;> rw [hwrite'] at hbody
    · have hflush := later.flush_flushes
      rw [show later.flushes = _ from hbody, show behind.flushes = _ from hheader] at hflush
      rcases hlast : later.flush with ⟨last, _ | cause⟩ <;>
        simpa [writeFrame, hwrite, hwrite', hlast] using hflush
    · simpa [writeFrame, hwrite, hwrite'] using hbody.trans hheader
  · simpa [writeFrame, hwrite] using hheader

theorem writeFrames_flushes (o : Outlet) (bodies : List Bytes) :
    (o.writeFrames bodies).1.flushes = o.flushes + (o.writeFrames bodies).2.count none := by
  induction bodies generalizing o with
  | nil => rfl
  | cons body bodies ih =>
    rw [writeFrames_cons, ih, o.writeFrame_flushes, List.count_cons]
    simp only [beq_iff_eq]
    omega

end Outlet

/-- Every body is tried, and what an outlet with limited room gets are the first bytes of all frames,
as many as it takes. A write succeeds exactly if its frame and all frames before it fit, so that the
successful writes come first. One that fails says that the header failed if it was not reached or not
whole, and else that the body did. There is one flush for each success. -/
theorem writeFrames_fills_room (bodies : List Bytes) (limit : Nat) :
    let outcome := (Outlet.new (some limit) false).writeFrames bodies
    let frames := bodies.flatMap frameOf
    let upTo (n : Nat) := ((bodies.take n).flatMap frameOf).length
    outcome.1.written = frames.take (min limit frames.length) ∧
      outcome.2.length = bodies.length ∧
      (∀ i < bodies.length, outcome.2[i]? = some none ↔ upTo (i + 1) ≤ limit) ∧
      (∀ i j : Nat, i ≤ j → outcome.2[j]? = some none → outcome.2[i]? = some none) ∧
      (∀ (i : Nat) body e, bodies[i]? = some body → outcome.2[i]? = some (some e) →
        if limit < upTo i + (headerFor body).length then
          e = .header .brokenPipe ∧ e.message = "writing frame header: broken pipe"
        else e = .body .brokenPipe ∧ e.message = "writing frame body: broken pipe") ∧
      outcome.1.flushes = outcome.2.count none := by
  intro outcome frames upTo
  obtain ⟨hwritten, hlength, hresults⟩ :=
    (Outlet.new (some limit) false).writeFrames_of_room bodies rfl rfl
  have hok (i : Nat) (hi : i < bodies.length) :
      outcome.2[i]? = some none ↔ upTo (i + 1) ≤ limit := by
    have hresult : outcome.2[i]? = _ := hresults i
    rw [hresult, List.getElem?_eq_getElem hi, Option.map_some, Option.some.injEq,
      Outlet.verdict_eq_none_iff, ← List.take_succ_eq_append_getElem hi]
  refine ⟨?_, hlength, hok, ?_, ?_, ?_⟩
  · rw [← List.take_eq_take_min]
    exact hwritten
  · intro i j hij hj
    have hj' : j < bodies.length := by
      rw [← hlength]
      exact (List.getElem?_eq_some_iff.mp hj).1
    have hle : upTo (i + 1) ≤ upTo (j + 1) :=
      (List.IsPrefix.flatMap (List.take_prefix_take_left (Nat.succ_le_succ hij)) frameOf).length_le
    exact (hok i (Nat.lt_of_le_of_lt hij hj')).mpr (Nat.le_trans hle ((hok j hj').mp hj))
  · intro i body e hbody he
    have hresult : outcome.2[i]? = _ := hresults i
    rw [hresult, hbody, Option.map_some, Option.some.injEq] at he
    have hcause := Outlet.verdict_eq_some limit _ body e he
    split <;> rename_i hreached
    · rw [if_pos hreached] at hcause
      subst e
      exact ⟨rfl, by decide⟩
    · rw [if_neg hreached] at hcause
      subst e
      exact ⟨rfl, by decide⟩
  · exact (Outlet.writeFrames_flushes _ bodies).trans (Nat.zero_add _)

end NoiseGate

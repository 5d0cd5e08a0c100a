import NoiseGate.Stream.Outlet

/-!
# Room for more bytes

An outlet either has room for what is written to it and takes all of it, or takes what it has room for
and fails. `took` and `filled` are what becomes of it.
-/

namespace NoiseGate.Outlet

def Fits (o : Outlet) (n : Nat) : Prop := ∀ room ∈ o.room, n ≤ room

def took (o : Outlet) (data : Bytes) : Outlet :=
  { o with room := o.room.map (· - data.length), written := o.written ++ data }

theorem fits_of_le (o : Outlet) {n room : Nat} (hr : o.room = some room) (hle : n ≤ room) :
    o.Fits n := by
  intro other hother
  rw [hr, Option.mem_some_iff] at hother
  exact hother ▸ hle

theorem took_nil (o : Outlet) : o.took [] = o := by
  obtain ⟨room, flushFails, written, flushes⟩ := o
  cases room <;> simp [took]

theorem took_took (o : Outlet) (a b : Bytes) : (o.took a).took b = o.took (a ++ b) := by
  simp [took, Function.comp_def, Nat.sub_sub]

theorem write_of_fits (o : Outlet) (data : Bytes) (h : o.Fits data.length) :
    o.write data = (o.took data, none) := by
  obtain ⟨room, flushFails, written, flushes⟩ := o
  cases room with
  | none => rfl
  | some n =>
    have hn : data.length ≤ n := h n rfl
    simp [write, took, hn]

def filled (o : Outlet) (data : Bytes) : Outlet :=
  { o with room := some 0, written := o.written ++ data }

theorem write_of_lt (o : Outlet) (data : Bytes) {room : Nat} (hr : o.room = some room)
    (hlt : room < data.length) :
    o.write data = (o.filled (data.take room), some .brokenPipe) := by
  simp [write, filled, hr, hlt]

theorem write_flushes (o : Outlet) (data : Bytes) : (o.write data).1.flushes = o.flushes := by
  unfold write
  split
  · rfl
  · split <;> rfl

theorem written_of_write {o later : Outlet} {data : Bytes} (h : o.write data = (later, none)) :
    later.written = o.written ++ data := by
  unfold write at h
  split at h
  · cases h
    rfl
  · split at h <;> cases h
    rfl

theorem Fits.of_le {o : Outlet} {m n : Nat} (h : o.Fits n) (hle : m ≤ n) : o.Fits m :=
  fun room hr => Nat.le_trans hle (h room hr)

theorem Fits.took {o : Outlet} {data : Bytes} {n : Nat} (h : o.Fits (data.length + n)) :
    (o.took data).Fits n := by
  intro room hr
  obtain ⟨before, hbefore, rfl⟩ := Option.map_eq_some_iff.mp hr
  have hle := h before hbefore
  omega

end NoiseGate.Outlet

import NoiseGate.Stream.Arrival

/-!
# Outlets

An outlet takes bytes until its room is used up. A write that does not fit leaves the part that
fits and fails with a broken pipe. A flush may fail on its own account.
-/

namespace NoiseGate

structure Outlet where
  /-- How many bytes it still takes, without limit if there is no number. -/
  room : Option Nat
  flushFails : Bool
  written : Bytes
  flushes : Nat
  deriving DecidableEq

namespace Outlet

def new (room : Option Nat) (flushFails : Bool) : Outlet := ⟨room, flushFails, [], 0⟩

def write (o : Outlet) (data : Bytes) : Outlet × Option Fault :=
  match o.room with
  | none => ({ o with written := o.written ++ data }, none)
  | some room =>
    if data.length ≤ room then
      ({ o with room := some (room - data.length), written := o.written ++ data }, none)
    else
      ({ o with room := some 0, written := o.written ++ data.take room }, some .brokenPipe)

def flush (o : Outlet) : Outlet × Option Fault :=
  if o.flushFails then (o, some .brokenPipe) else ({ o with flushes := o.flushes + 1 }, none)

end Outlet

end NoiseGate

import NoiseGate.Bytes

/-!
# Dates and times in TOML

A moment is a date, a time of day, or both with or without an offset. Only its form counts, and
that its parts lie in their ranges.
-/

namespace NoiseGate.Toml

/-- Reads a number of a fixed count of digits. -/
def readFixed : Nat → Nat → Text → Option (Nat × Text)
  | 0, n, s => some (n, s)
  | _ + 1, _, [] => none
  | count + 1, n, c :: s =>
    if c.isDigit then readFixed count (10 * n + (c.toNat - 48)) s else none

def skipMark (mark : Char) : Text → Option Text
  | c :: s => if c = mark then some s else none
  | [] => none

def isLeapYear (year : Nat) : Bool := year % 4 = 0 && (year % 100 ≠ 0 || year % 400 = 0)

def daysIn (year month : Nat) : Nat :=
  if month = 2 then if isLeapYear year then 29 else 28
  else if month = 4 ∨ month = 6 ∨ month = 9 ∨ month = 11 then 30
  else 31

/-- The rest behind a date. -/
def skipDate (s : Text) : Option Text := do
  let (year, s) ← readFixed 4 0 s
  let (month, s) ← readFixed 2 0 (← skipMark '-' s)
  let (day, s) ← readFixed 2 0 (← skipMark '-' s)
  if 1 ≤ month ∧ month ≤ 12 ∧ 1 ≤ day ∧ day ≤ daysIn year month then some s else none

/-- The rest behind the seconds of a time, which need not be given. A leap second may be. -/
def skipSeconds : Text → Option Text
  | ':' :: s => do
    let (second, s) ← readFixed 2 0 s
    if 60 < second then none
    else
      match s with
      | '.' :: c :: s => if c.isDigit then some (s.dropWhile Char.isDigit) else none
      | '.' :: _ => none
      | s => some s
  | s => some s

/-- The rest behind a time of day. -/
def skipTime (s : Text) : Option Text := do
  let (hour, s) ← readFixed 2 0 s
  let (minute, s) ← readFixed 2 0 (← skipMark ':' s)
  if hour ≤ 23 ∧ minute ≤ 59 then skipSeconds s else none

def isOffset : Text → Bool
  | [] => false
  | c :: s =>
    if c = 'Z' || c = 'z' then s.isEmpty
    else if c = '+' || c = '-' then
      match skipTime s with
      | some rest => rest.isEmpty && s.length = 5
      | none => false
    else false

def isDate (s : Text) : Bool := skipDate s = some []

def isMoment (s : Text) : Bool :=
  match skipDate s with
  | some [] => true
  | some (c :: s) =>
    (c = 'T' || c = 't' || c = ' ') &&
      match skipTime s with
      | some rest => rest.isEmpty || isOffset rest
      | none => false
  | none => skipTime s = some []

end NoiseGate.Toml

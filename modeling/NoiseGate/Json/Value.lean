import NoiseGate.Json.Tree
import NoiseGate.Text.Utf8

/-!
# JSON values

A value has the meaning of a tree: characters for the parts of a string, numbers for numerals, and
members in the order of their names. Of several members with one name the last counts.
-/

namespace NoiseGate.Json

inductive Value
  | null
  | bool (b : Bool)
  | number (n : Number)
  | string (s : Text)
  | array (items : List Value)
  | object (members : List (Text × Value))

/-- The nesting that a value may have. -/
def maxDepth : Nat := 127

/-- The bytes of a string. A surrogate stands only in a pair, high before low. -/
def stringBytes? : RawString → Option Bytes
  | [] => some []
  | .raw b :: rest => (stringBytes? rest).map (b :: ·)
  | .unit high :: .unit low :: rest =>
    if 0xD800 ≤ high ∧ high < 0xDC00 then
      if 0xDC00 ≤ low ∧ low < 0xE000 then
        (stringBytes? rest).map
          (Utf8.encodeChar (Char.ofNat (0x10000 + (high - 0xD800) * 0x400 + (low - 0xDC00))) ++ ·)
      else none
    else if 0xDC00 ≤ high ∧ high < 0xE000 then none
    else (stringBytes? (.unit low :: rest)).map (Utf8.encodeChar (Char.ofNat high) ++ ·)
  | .unit code :: rest =>
    if 0xD800 ≤ code ∧ code < 0xE000 then none
    else (stringBytes? rest).map (Utf8.encodeChar (Char.ofNat code) ++ ·)

/-- The characters of a string. -/
def text? (s : RawString) : Option Text := (stringBytes? s).bind Utf8.decode?

/-- Members in the order of their names, with one member for each name. -/
def insertMember (name : Text) (v : Value) : List (Text × Value) → List (Text × Value)
  | [] => [(name, v)]
  | (other, w) :: rest =>
    if name = other then (name, v) :: rest
    else if name < other then (name, v) :: (other, w) :: rest
    else (other, w) :: insertMember name v rest

def orderMembers (members : List (Text × Value)) : List (Text × Value) :=
  members.foldl (fun ordered (name, v) => insertMember name v ordered) []

/-- The value of a tree that nests at most `depth` lists. -/
def Tree.value? : Nat → Tree → Option Value
  | _, .null => some .null
  | _, .bool b => some (.bool b)
  | _, .number n => n.value?.map .number
  | _, .string s => (text? s).map .string
  | 0, .array _ => none
  | 0, .object _ => none
  | depth + 1, .array items => (items.mapM (Tree.value? depth)).map .array
  | depth + 1, .object members =>
    (members.mapM fun (name, t) => do return (← text? name, ← Tree.value? depth t)).map
      fun members => .object (orderMembers members)

namespace Value

/-- The value of a text. -/
def parse? (text : Bytes) : Option Value := (Tree.parse? text).bind (Tree.value? maxDepth)

def member? (name : Text) : Value → Option Value
  | object members => members.lookup name
  | _ => none

end Value

end NoiseGate.Json

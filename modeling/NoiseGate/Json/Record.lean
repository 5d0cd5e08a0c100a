import NoiseGate.Json.Value
import NoiseGate.Text.Record

/-!
# Records in JSON

A record is written as an object with its fields by name, or as an array with its fields in order.
Other members of an object are not looked at, beyond their names.
-/

namespace NoiseGate.Json

/-- The fields of a record, each with the tree that is given for it. No field is given twice. -/
def Tree.fields? (names : List String) : Tree → Option (List (Option Tree))
  | .object members => do
    let members ← members.mapM fun (name, t) => do return (← text? name, t)
    names.mapM fun name =>
      match members.filter fun (other, _) => other = name.toList with
      | [] => some none
      | [(_, t)] => some (some t)
      | _ => none
  | .array items =>
    if items.length ≤ names.length then
      some (items.map some ++ List.replicate (names.length - items.length) none)
    else none
  | _ => none

def Tree.bool? : Tree → Option Bool
  | .bool b => some b
  | _ => none

def Tree.text? : Tree → Option Text
  | .string s => Json.text? s
  | _ => none

def Tree.count? (most : Nat) : Tree → Option Nat
  | .number n =>
    match n.value? with
    | some (.integer i) => if 0 ≤ i ∧ i.toNat ≤ most then some i.toNat else none
    | _ => none
  | _ => none

def Tree.reader : NodeReader Tree := ⟨Tree.bool?, Tree.text?, Tree.count?⟩

def Tree.texts? : Tree → Option (List Text)
  | .array items => items.mapM Tree.text?
  | _ => none

/-- A field that may be null. -/
def Tree.nullable? {α : Type} (read : Tree → Option α) : Tree → Option (Option α)
  | .null => some none
  | t => (read t).map some

end NoiseGate.Json

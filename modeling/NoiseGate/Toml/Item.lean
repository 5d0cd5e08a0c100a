import NoiseGate.Text.Record

/-!
# TOML tables

A document is built up from statements, and what a statement may add to a table depends on how the
table came about. A header may be given once for each table. A table that is written as a value is
complete. A dotted key makes tables of its own and adds to these only, not to tables with a header.
-/

namespace NoiseGate.Toml

/-- How a table came about. -/
inductive Origin
  /-- It has a header, or it is the root. -/
  | header
  /-- It lies on the way to a table that has a header. -/
  | implied
  /-- It was made by a dotted key. -/
  | dotted
  /-- It was written as a value. -/
  | inline
  deriving DecidableEq

inductive Item
  | text (t : Text)
  | bool (b : Bool)
  | integer (n : Int)
  | real
  | moment
  | array (items : List Item)
  | table (origin : Origin) (members : List (Text × Item))
  /-- The tables with one repeated header, the latest first. -/
  | series (tables : List Item)

abbrev Key := List Text

namespace Item

def empty (origin : Origin) : Item := table origin []

/-- Changes the table that an item is. Of a series, that is the latest table. -/
def onTable (f : Origin → List (Text × Item) → Option Item) : Item → Option Item
  | table origin members => f origin members
  | series (table origin members :: earlier) =>
    (f origin members).map fun latest => series (latest :: earlier)
  | _ => none

def setMember (name : Text) (item : Item) : List (Text × Item) → List (Text × Item)
  | [] => [(name, item)]
  | (other, old) :: rest =>
    if name = other then (name, item) :: rest else (other, old) :: setMember name item rest

/-- Changes the table at the end of a key. Tables that are missing on the way are made. A way that
is part of a dotted key does not lead through tables with a header of their own. -/
def update (dotted : Bool) (f : Origin → List (Text × Item) → Option Item) :
    Key → Item → Option Item
  | [] => onTable f
  | name :: key => onTable fun origin members =>
    match members.lookup name with
    | none =>
      (update dotted f key (empty (if dotted then .dotted else .implied))).map fun item =>
        table origin (setMember name item members)
    | some (table .inline _) => none
    | some (table inner held) =>
      if dotted && inner = .header then none
      else (update dotted f key (table inner held)).map fun item =>
        table origin (setMember name item members)
    | some other =>
      (update dotted f key other).map fun item => table origin (setMember name item members)

/-- Adds a member to a table. A dotted key ends in a table that dotted keys have made, and a plain
key in one that they have not. -/
def insert (root : Item) (key : Key) (item : Item) : Option Item :=
  match key.getLast? with
  | none => none
  | some name =>
    let way := key.dropLast
    root.update true (fun origin members =>
      if (origin = .dotted) = (way ≠ []) ∧ (members.lookup name).isNone then
        some (table origin (setMember name item members))
      else none) way

/-- The table that is written as a value with the given members. -/
def ofMembers (members : List (Key × Item)) : Option Item :=
  (members.foldlM (fun (t : Item) (key, item) => t.insert key item) (empty .header)).bind
    (onTable fun _ members => some (table .inline members))

/-- Opens a table with a header. -/
def openTable (key : Key) (root : Item) : Option Item :=
  match key.getLast? with
  | none => none
  | some name =>
    root.update false (fun origin members =>
      match members.lookup name with
      | none => some (table origin (setMember name (empty .header) members))
      | some (table .implied held) =>
        some (table origin (setMember name (table .header held) members))
      | some _ => none) key.dropLast

/-- Opens one more table with a repeated header. -/
def openNext (key : Key) (root : Item) : Option Item :=
  match key.getLast? with
  | none => none
  | some name =>
    root.update false (fun origin members =>
      match members.lookup name with
      | none => some (table origin (setMember name (series [empty .header]) members))
      | some (series tables) =>
        some (table origin (setMember name (series (empty .header :: tables)) members))
      | some _ => none) key.dropLast

def bool? : Item → Option Bool
  | bool b => some b
  | _ => none

def text? : Item → Option Text
  | text t => some t
  | _ => none

def count? (most : Nat) : Item → Option Nat
  | integer n => if 0 ≤ n ∧ n.toNat ≤ most then some n.toNat else none
  | _ => none

def reader : NodeReader Item := ⟨bool?, text?, count?⟩

def texts? : Item → Option (List Text)
  | array items => items.mapM text?
  | _ => none

/-- The items of a record that is written in order. -/
def inOrder? : Item → Option (List Item)
  | array items => some items
  | series tables => some tables.reverse
  | _ => none

/-- The fields of a record, by name in a table or in order in an array. An array must be long
enough if all fields are needed. A moment counts as a table that has none of the names. -/
def fields? (all : Bool) (names : List String) : Item → Option (List (Option Item))
  | table _ members => some (names.map fun name => members.lookup name.toList)
  | moment => some (names.map fun _ => none)
  | item =>
    item.inOrder?.bind fun items =>
      if all && items.length < names.length then none
      else some ((items.take names.length).map some ++
        List.replicate (names.length - items.length) none)

end Item

end NoiseGate.Toml

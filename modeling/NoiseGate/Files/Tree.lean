import NoiseGate.Files.Path

/-!
# File trees

A tree of directories and files. A location is the list of names from the root down. A path leads
to a location, whether there is anything or not, if all that it passes through are directories.
-/

namespace NoiseGate

inductive FileEntry
  | directory
  | file (content : Bytes)
  /-- A device that takes all that is written to it, or nothing. It holds no bytes. -/
  | device (takes : Bool)
  deriving DecidableEq

abbrev Location := List Text

structure FileTree where
  /-- What is at each location. There is always a directory at the root. -/
  entries : List (Location × FileEntry)
  /-- Where paths that do not begin at the root begin. -/
  start : Location

namespace FileTree

def entry? (t : FileTree) : Location → Option FileEntry
  | [] => some .directory
  | location => t.entries.lookup location

def isDirectory (t : FileTree) (location : Location) : Bool :=
  t.entry? location = some .directory

def put (t : FileTree) (location : Location) (e : FileEntry) : FileTree :=
  { t with entries := (location, e) :: t.entries.filter fun (other, _) => other ≠ location }

/-- One step from a directory. -/
def enter (here : Location) (name : Text) : Location :=
  if name = [] ∨ name = ['.'] then here
  else if name = ['.', '.'] then here.dropLast
  else here ++ [name]

/-- Follows names from a location on. -/
def walk (t : FileTree) (here : Location) : List Text → Option Location
  | [] => some here
  | name :: names => if t.isDirectory here then t.walk (enter here name) names else none

/-- The location at which a path begins. -/
def origin (t : FileTree) (p : Path) : Location := if p.head? = some '/' then [] else t.start

/-- The location that a path leads to. The empty path leads nowhere. -/
def locate (t : FileTree) (p : Path) : Option Location :=
  if p.isEmpty then none else t.walk (t.origin p) p.components

def find? (t : FileTree) (p : Path) : Option FileEntry := (t.locate p).bind t.entry?

def exists? (t : FileTree) (p : Path) : Bool := (t.find? p).isSome

def read? (t : FileTree) (p : Path) : Option Bytes :=
  match t.find? p with
  | some (.file content) => some content
  | some (.device true) => some []
  | _ => none

/-- Follows names and makes the directories that are missing. The result says whether it got to the
end, and what was made on the way stays. -/
def makeFrom (t : FileTree) (here : Location) : List Text → FileTree × Bool
  | [] => (t, true)
  | name :: names =>
    let there := enter here name
    match t.entry? there with
    | some .directory => t.makeFrom there names
    | some _ => (t, false)
    | none => (t.put there .directory).makeFrom there names

/-- Makes a directory with all that it lies in. -/
def makeDirectory (t : FileTree) (p : Path) : FileTree × Bool :=
  if p.isEmpty then (t, true) else t.makeFrom (t.origin p) p.components

/-- Makes a file for writing where there is none. Directories cannot be written. -/
def create (t : FileTree) (p : Path) : Option (FileTree × Location) := do
  let location ← t.locate p
  match t.entry? location with
  | some .directory => none
  | some _ => some (t, location)
  | none => some (t.put location (.file []), location)

/-- Appends to what is at a location. Nothing is always taken. -/
def append (t : FileTree) (location : Location) (data : Bytes) : FileTree × Bool :=
  match t.entry? location with
  | some (.file content) => (t.put location (.file (content ++ data)), true)
  | some (.device takes) => (t, takes || data.isEmpty)
  | _ => (t, false)

end FileTree

end NoiseGate

import TraceCoverage.Executable.Basic
import TraceCoverage.Listing.Error
import TraceCoverage.Text.Path

/-!
# Load maps

The file beside an executable that says where its dynamic libraries were loaded: one line with a
name and a hexadecimal address for each.
-/

namespace TraceCoverage

open Text

structure LoadMap where
  entries : List (String × Address)
deriving DecidableEq, Repr

namespace LoadMap

/-- What one line of a load map says. -/
inductive Line where
  | entry (name : String) (address : Address)
  | blank
  | malformed
deriving DecidableEq, Repr

def Line.ofString (line : String) : Line :=
  match words line.toList with
  | name :: digits :: _ =>
    match Address.ofChars? digits with
    | some address => entry (String.ofList name) address
    | none => malformed
  | _ => blank

def ofLines (lines : List String) : LoadMap where
  entries := lines.filterMap fun line =>
    match Line.ofString line with
    | .entry name address => some (name, address)
    | _ => none

/-- The malformed lines, with their numbers from 1. -/
def warnings (lines : List String) : List Warning :=
  lines.zipIdx.filterMap fun (line, i) =>
    match Line.ofString line with
    | .malformed => some (.malformedLoadMapEntry (i + 1) line)
    | _ => none

def ofStream (stream : TextStream) : Except ListingError LoadMap :=
  match stream.failure with
  | some cause => .error (.unreadable cause)
  | none => .ok (ofLines stream.lines)

def pathFor (executable : String) : String := executable ++ ".dlinfo"

/-- The load address of a library. Directories do not count, on either side. An entry of that
very name wins; otherwise it is the first entry whose name holds the name that is looked for. -/
def lookup (m : LoadMap) (library : String) : Option Address :=
  (fileName? library.toList).bind fun wanted =>
    let named (p : List Char → Bool) :=
      m.entries.find? fun entry => (fileName? entry.1.toList).any p
    ((named (· == wanted)).or (named (occursIn wanted))).map (·.2)

/-- Loads the library of an executable at its address. -/
def resolve (m : LoadMap) (e : Executable) : Outcome Executable ListingError Address :=
  match e.library with
  | none => { state := e, result := .error (.notALibrary e.file) }
  | some library =>
    match m.lookup library with
    | none => { state := e, result := .error (.libraryNotFound library) }
    | some address => { state := { e with loadAddress := address }, result := .ok address }

end LoadMap

end TraceCoverage

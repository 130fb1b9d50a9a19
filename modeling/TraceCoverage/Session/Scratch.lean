import TraceCoverage.Outcome
import TraceCoverage.Session.FileTree

/-!
# Temporary files

The output of a disassembler goes to temporary files. They are registered and removed with the
session, unless the user wants to keep them. Handles share the register, and the last one to go
removes what is left.
-/

namespace TraceCoverage

namespace Scratch

def directory : String := "/tmp"

/-- Six letters and digits that stand for a number. -/
def tag (n : Nat) : String :=
  let digits := Nat.toDigits 16 (n % 0x1000000)
  String.ofList (List.replicate (6 - digits.length) '0' ++ digits)

/-- The first path in the temporary directory that is not taken, by the numbers of the tries. -/
def numbered (tree : FileTree) (start ending : String) : String :=
  let candidate (i : Nat) := directory ++ "/" ++ start ++ tag i ++ ending
  let tries := (List.range (tree.nodes.size + 1)).map candidate
  (tries.find? fun path => !tree.contains path).getD (candidate 0)

end Scratch

structure Scratch where
  tree : FileTree := {}
  keep : Bool := false
  /-- The paths to remove, the oldest first. -/
  registered : List String := []
  /-- Every path that `create` gave out, the newest first. -/
  created : List String := []
  /-- How many handles share the register. -/
  handles : Nat := 1
  /-- Where the environment puts a new file whose name starts and ends as given. -/
  pick : FileTree → String → String → String := Scratch.numbered

namespace Scratch

def register (s : Scratch) (path : String) : Scratch :=
  { s with registered := s.registered ++ [path] }

/-- Makes an empty file at a path and registers it. Where that fails, nothing is registered. -/
def createAt (s : Scratch) (path : String) : Except ReadFailure Scratch :=
  (s.tree.create path).map fun tree =>
    { s with tree, created := path :: s.created }.register path

/-- Makes and registers an empty file whose name starts and ends as given. -/
def create (s : Scratch) (start ending : String) : Except ReadFailure (String × Scratch) :=
  let path := s.pick s.tree start ending
  (s.createAt path).map fun made => (path, made)

/-- Removes one registered path; a path that is gone already is no matter. -/
def removeStep (state : FileTree × Nat × List Warning) (path : String) :
    FileTree × Nat × List Warning :=
  let (tree, removed, warnings) := state
  match tree.remove path with
  | .ok tree => (tree, removed + 1, warnings)
  | .error .missing => state
  | .error cause => (tree, removed, warnings ++ [.notRemoved path cause])

/-- Empties the register and, unless the files are kept, removes them. The number counts those
that were there. -/
def cleanup (s : Scratch) : Nat × List Warning × Scratch :=
  if s.keep then (0, [], { s with registered := [] })
  else
    let (tree, removed, warnings) := s.registered.foldl removeStep (s.tree, 0, [])
    (removed, warnings, { s with tree, registered := [] })

def clone (s : Scratch) : Scratch := { s with handles := s.handles + 1 }

/-- One handle less. The last one cleans up. -/
def drop (s : Scratch) : Scratch :=
  if s.handles ≤ 1 then { s.cleanup.2.2 with handles := 0 } else { s with handles := s.handles - 1 }

def dropAll (s : Scratch) : Scratch := { s.cleanup.2.2 with handles := 0 }

def remaining (s : Scratch) : Nat := s.registered.countP s.tree.contains

def createdLeft (s : Scratch) : Nat := s.created.countP s.tree.contains

end Scratch

end TraceCoverage

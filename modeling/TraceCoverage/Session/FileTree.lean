import TraceCoverage.Text.Path
import TraceCoverage.Text.Stream
import Std.Data.ExtTreeMap

/-!
# File trees

The files and directories that a session sees, as a value, and the way from a path to one of them.
-/

namespace TraceCoverage

open Text

inductive FileNode where
  | file (bytes : ByteArray)
  | directory

namespace FileNode

/-- The lines of what was opened. A directory can be opened, but not read. -/
def stream : FileNode → TextStream
  | file bytes => .ofBytes bytes
  | directory => .failed .isDirectory

/-- The lines of a compressed file, as a decoder yields them. -/
def decodedStream (decoder : Decoder) : FileNode → TextStream
  | file bytes => .ofDecoded (decoder bytes)
  | directory => .failed .isDirectory

def text : FileNode → Except ReadFailure String
  | file bytes =>
    match String.fromUTF8? bytes with
    | some text => .ok text
    | none => .error .notUtf8
  | directory => .error .isDirectory

end FileNode

/-! ## Places -/

/-- A place in a tree: the names on the way to it from the root, the last one first. -/
abbrev Place := List String

namespace Place

/-- Where a part of a path leads. Nothing is above the root. -/
def step (place : Place) (part : String) : Place :=
  if part = "" ∨ part = "." then place
  else if part = ".." then place.tail
  else part :: place

/-- The steps that a path takes: all of its parts, with those that name nothing. -/
def steps (path : String) : List String := (pieces (· == '/') path.toList).map String.ofList

def ofPath (path : String) : Place := (steps path).foldl step []

end Place

/-! ## Trees -/

structure FileTree where
  nodes : Std.ExtTreeMap Place FileNode := ∅
  /-- Where a relative path starts. This is a directory, and so is all above it. -/
  working : Place := []

namespace FileTree

/-- The longest name, in bytes. -/
def nameLimit : Nat := 255

/-- The longest path, in bytes. -/
def pathLimit : Nat := 4095

def nodeAt? (t : FileTree) (place : Place) : Option FileNode :=
  if place.isSuffixOf t.working then some .directory else t.nodes[place]?

/-- Follows the steps of a path from a place. Each needs a directory to start from. -/
def walk (t : FileTree) (place : Place) : List String → Except ReadFailure Place
  | [] => .ok place
  | part :: rest =>
    match t.nodeAt? place with
    | none => .error .missing
    | some (.file _) => .error .notDirectory
    | some .directory =>
      if nameLimit < part.utf8ByteSize then .error .nameTooLong
      else t.walk (place.step part) rest

def start (t : FileTree) (path : String) : Place :=
  if path.toList.head? = some '/' then [] else t.working

def locate (t : FileTree) (path : String) : Except ReadFailure Place :=
  if path.toList.contains '\x00' then .error .nulInPath
  else if path.isEmpty then .error .missing
  else if pathLimit < path.utf8ByteSize then .error .nameTooLong
  else t.walk (t.start path) (Place.steps path)

def find (t : FileTree) (path : String) : Except ReadFailure FileNode :=
  match t.locate path with
  | .error cause => .error cause
  | .ok place =>
    match t.nodeAt? place with
    | none => .error .missing
    | some node => .ok node

def contains (t : FileTree) (path : String) : Bool := (t.find path).toBool

def isFile (t : FileTree) (path : String) : Bool :=
  match t.find path with
  | .ok (.file _) => true
  | _ => false

def openText (t : FileTree) (path : String) : Except ReadFailure TextStream :=
  (t.find path).map FileNode.stream

/-- Puts a node at a path, and directories on the way to it. -/
def put (t : FileTree) (path : String) (node : FileNode) : FileTree :=
  let way := (Place.steps path).scanl Place.step (t.start path)
  let nodes := way.foldl (fun nodes place => nodes.insertIfNew place .directory) t.nodes
  { t with nodes := nodes.insert (way.getLastD []) node }

def write (t : FileTree) (path : String) (bytes : ByteArray) : FileTree := t.put path (.file bytes)

/-- Makes an empty file where nothing is. -/
def create (t : FileTree) (path : String) : Except ReadFailure FileTree :=
  match t.locate path with
  | .error cause => .error cause
  | .ok place =>
    match t.nodeAt? place with
    | none => .ok (t.write path .empty)
    | some _ => .error .taken

/-- Takes a file away. Directories stay. -/
def remove (t : FileTree) (path : String) : Except ReadFailure FileTree :=
  match t.locate path with
  | .error cause => .error cause
  | .ok place =>
    match t.nodeAt? place with
    | none => .error .missing
    | some .directory => .error .isDirectory
    | some (.file _) => .ok { t with nodes := t.nodes.erase place }

end FileTree

end TraceCoverage

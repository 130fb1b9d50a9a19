import TraceCoverage.Executable.SymbolTable
import TraceCoverage.Symbol.Registry

/-!
# Executables

One executable under analysis, or one dynamic library that an executable loads: its symbols, a
coverage map for each, and where its branches go. Its maps are its own until they are merged into
the registry.
-/

namespace TraceCoverage

structure Executable where
  /-- The place of the executable among the inputs. -/
  id : Nat
  file : String
  library : Option String := none
  loadAddress : Address := 0
  symbols : SymbolTable := {}
  maps : Std.ExtTreeMap String CoverageMap := ∅
  targets : Std.ExtTreeMap Address Address := ∅

namespace Executable

/-- Adds a blank map. A symbol has one map at most. -/
def createMap (e : Executable) (name : String) (low high : Address) :
    Except CoverageError Executable :=
  if e.maps.contains name then .error (.duplicateSymbol name)
  else
    match CoverageMap.ofRange low high with
    | .error cause => .error cause
    | .ok m => .ok { e with maps := e.maps.insert name m }

def addSymbol (e : Executable) (name : String) (base : Address) (size : UInt32) : Executable :=
  { e with symbols := e.symbols.add name base size }

def updateMap (e : Executable) (name : String) (f : CoverageMap → CoverageMap) : Executable :=
  { e with maps := e.maps.modify name f }

def lookup? (e : Executable) (a : Address) : Option (String × CoverageMap) :=
  match e.symbols.at? a with
  | none => none
  | some entry => (e.maps[entry.name]?.filter (·.contains a)).map (entry.name, ·)

def mapAt? (e : Executable) (a : Address) : Option CoverageMap := (e.lookup? a).map (·.2)

def updateAt (e : Executable) (a : Address) (f : CoverageMap → CoverageMap) : Executable :=
  match e.lookup? a with
  | some (name, _) => e.updateMap name f
  | none => e

def set (e : Executable) (a : Address) (f : Flags) : Executable := e.updateAt a (·.set a f)

def markExecuted (e : Executable) (a : Address) : Executable := e.updateAt a (·.markExecuted a)

def markDirection (e : Executable) (a : Address) (taken : Bool) : Executable :=
  e.set a (if taken then Flags.taken else Flags.notTaken)

def setTarget (e : Executable) (branch target : Address) : Executable :=
  { e with targets := e.targets.insert branch target }

def target? (e : Executable) (branch : Address) : Option Address := e.targets[branch]?

/-- One step of `mergeInto`. Nothing is merged any more once a map has failed. -/
def mergeStep (o : Outcome Registry CoverageError Nat) (entry : String × CoverageMap) :
    Outcome Registry CoverageError Nat :=
  match o.result with
  | .error _ => o
  | .ok n =>
    let merged := o.state.merge entry.1 entry.2
    { state := merged.state
      result := merged.result.map fun _ => n + 1
      warnings := o.warnings ++ merged.warnings }

/-- Merges every map into the registry, in the order of the names. Maps before one that fails
stay merged. The result counts the maps. -/
def mergeInto (e : Executable) (r : Registry) : Outcome Registry CoverageError Nat :=
  e.maps.toList.foldl mergeStep { state := r, result := .ok 0 }

end Executable

end TraceCoverage

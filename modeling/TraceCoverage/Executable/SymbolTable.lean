import TraceCoverage.Address
import Std.Data.ExtTreeMap

/-!
# Symbol tables

Where the symbols of one executable lie, by address and by name. A name has one place; adding it
again moves it.
-/

namespace TraceCoverage

structure SymbolEntry where
  name : String
  base : Address
  size : UInt32
deriving DecidableEq, Repr

namespace SymbolEntry

def last (e : SymbolEntry) : Address := e.base + (if e.size = 0 then 0 else e.size - 1)

def contains (e : SymbolEntry) (a : Address) : Bool := e.base ≤ a && a ≤ e.last

end SymbolEntry

structure SymbolTable where
  byAddress : Std.ExtTreeMap Address SymbolEntry := ∅
  byName : Std.ExtTreeMap String Address := ∅

namespace SymbolTable

/-- Puts a symbol at a base address. Whatever lay at its old base, or lies at its new one, goes. -/
def add (t : SymbolTable) (name : String) (base : Address) (size : UInt32) : SymbolTable :=
  let others :=
    match t.byName[name]? with
    | some old => t.byAddress.erase old
    | none => t.byAddress
  { byAddress := others.insert base { name, base, size }
    byName := t.byName.insert name base }

def find? (t : SymbolTable) (name : String) : Option SymbolEntry :=
  t.byName[name]?.bind fun base => t.byAddress[base]?

def toList (t : SymbolTable) : List SymbolEntry := t.byAddress.values

def size (t : SymbolTable) : Nat := t.byAddress.size

/-- The last entry based at or below an address, if it reaches that far. -/
def at? (t : SymbolTable) (a : Address) : Option SymbolEntry :=
  (t.toList.filter fun e => e.base ≤ a).getLast?.filter (·.contains a)

end SymbolTable

end TraceCoverage

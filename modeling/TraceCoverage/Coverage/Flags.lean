/-!
# Flags of one address

What is known about a byte of a symbol: whether an instruction starts there, what kind it is, and
what the traces showed. A set of flags is eight bits; six of them have a meaning.
-/

namespace TraceCoverage

structure Flags where
  bits : UInt8 := 0
deriving DecidableEq, Repr, Inhabited

namespace Flags

def empty : Flags := ⟨0⟩

/-- An instruction starts here. -/
def start : Flags := ⟨1⟩

/-- The instruction that starts here is a conditional branch. -/
def branch : Flags := ⟨2⟩

/-- The instruction that starts here is padding. -/
def nop : Flags := ⟨4⟩

/-- A run executed the byte. -/
def executed : Flags := ⟨8⟩

/-- A run saw the branch go to its target. -/
def taken : Flags := ⟨16⟩

/-- A run saw the branch fall through. -/
def notTaken : Flags := ⟨32⟩

def union (a b : Flags) : Flags := ⟨a.bits ||| b.bits⟩

instance : OrOp Flags := ⟨union⟩

def diff (a b : Flags) : Flags := ⟨a.bits &&& ~~~b.bits⟩

def meets (a b : Flags) : Bool := a.bits &&& b.bits != 0

def isStart (f : Flags) : Bool := f.meets start
def isBranch (f : Flags) : Bool := f.meets branch
def isNop (f : Flags) : Bool := f.meets nop
def isExecuted (f : Flags) : Bool := f.meets executed
def isTaken (f : Flags) : Bool := f.meets taken
def isNotTaken (f : Flags) : Bool := f.meets notTaken

def hasDirection (f : Flags) : Bool := f.meets (taken ||| notTaken)

end Flags

end TraceCoverage

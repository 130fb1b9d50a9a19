import TraceCoverage.Address
import TraceCoverage.Coverage.Flags

/-!
# Lines of a symbol

A line of the listing of one symbol: an instruction with what is known about it, or text between
instructions.
-/

namespace TraceCoverage

/-- A conditional branch, with its target where the disassembler shows one. -/
structure Branch where
  target : Option Address := none
deriving DecidableEq, Repr

structure CodeLine where
  /-- Where the instruction stands. Text has no address. -/
  address : Option Address := none
  text : String
  /-- The size of a padding instruction. -/
  nop : Option UInt32 := none
  branch : Option Branch := none
deriving DecidableEq, Repr

namespace CodeLine

def isInstruction (l : CodeLine) : Bool := l.address.isSome
def isNop (l : CodeLine) : Bool := l.nop.isSome
def isBranch (l : CodeLine) : Bool := l.branch.isSome

def nopSize (l : CodeLine) : Nat := (l.nop.getD 0).toNat

/-- Where the branch on the line goes, as far as known. -/
def target? (l : CodeLine) : Option Address := l.branch.bind Branch.target

def flags (l : CodeLine) : Flags :=
  Flags.start ||| (if l.isBranch then Flags.branch else Flags.empty) |||
    (if l.isNop then Flags.nop else Flags.empty)

end CodeLine

end TraceCoverage

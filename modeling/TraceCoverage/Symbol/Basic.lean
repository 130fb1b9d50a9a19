import TraceCoverage.Coverage.Map
import TraceCoverage.Listing.CodeLine
import TraceCoverage.Symbol.Range

/-!
# Symbols

All that is known about one wanted symbol over all executables, and the counts that are derived
from it.
-/

namespace TraceCoverage

/-- `part` of `total` in percent, rounded down; 0 of nothing. -/
def percent (part total : Nat) : Nat := part * 100 / total

structure Statistics where
  sizeInBytes : Nat := 0
  sizeInInstructions : Nat := 0
  uncoveredBytes : Nat := 0
  uncoveredInstructions : Nat := 0
  uncoveredRanges : Nat := 0
  branchesAlwaysTaken : Nat := 0
  branchesNeverTaken : Nat := 0
  branchesExecutedBoth : Nat := 0
  branchesNotExecuted : Nat := 0
deriving DecidableEq, Repr

structure Symbol where
  name : String
  /-- Where the executable has it that resolved it first. -/
  base : Address := 0
  /-- The lines of that executable. -/
  lines : List CodeLine := []
  /-- The number of that executable. -/
  source : Option Nat := none
  stats : Statistics := {}
  ranges : List UncoveredRange := []
  branches : List UncoveredRange := []
  /-- The maps of all executables merged, addressed by the offset from the base. -/
  unified : Option CoverageMap := none
deriving DecidableEq

def Symbol.isResolved (s : Symbol) : Bool := s.source.isSome

namespace Statistics

def countClass (verdict : BranchClass) (ranges : List UncoveredRange) : Nat :=
  ranges.countP (·.kind == .branch verdict)

def ofSymbol (s : Symbol) : Statistics :=
  match s.unified with
  | none => {}
  | some m =>
    { sizeInBytes := m.size
      sizeInInstructions := m.startCount
      uncoveredBytes := (s.ranges.map (·.sizeInBytes.toNat)).foldr (· + ·) 0
      uncoveredInstructions := (s.ranges.map (·.instructions)).foldr (· + ·) 0
      uncoveredRanges := s.ranges.length
      branchesAlwaysTaken := countClass .alwaysTaken s.branches
      branchesNeverTaken := countClass .neverTaken s.branches
      branchesExecutedBoth :=
        m.starts.countP (fun a => (m.flagsAt a).isBranch) - s.branches.length
      branchesNotExecuted := countClass .notExecuted s.branches }

def branchesFound (s : Statistics) : Nat :=
  s.branchesAlwaysTaken + s.branchesNeverTaken + s.branchesExecutedBoth + s.branchesNotExecuted

/-- Branches of which a direction was never seen. -/
def branchesUncovered (s : Statistics) : Nat :=
  s.branchesAlwaysTaken + s.branchesNeverTaken + s.branchesNotExecuted

def percentUncoveredBytes (s : Statistics) : Nat := percent s.uncoveredBytes s.sizeInBytes

def percentUncoveredInstructions (s : Statistics) : Nat :=
  percent s.uncoveredInstructions s.sizeInInstructions

def percentExecutedBytes (s : Statistics) : Nat :=
  percent (s.sizeInBytes - s.uncoveredBytes) s.sizeInBytes

def add (a b : Statistics) : Statistics where
  sizeInBytes := a.sizeInBytes + b.sizeInBytes
  sizeInInstructions := a.sizeInInstructions + b.sizeInInstructions
  uncoveredBytes := a.uncoveredBytes + b.uncoveredBytes
  uncoveredInstructions := a.uncoveredInstructions + b.uncoveredInstructions
  uncoveredRanges := a.uncoveredRanges + b.uncoveredRanges
  branchesAlwaysTaken := a.branchesAlwaysTaken + b.branchesAlwaysTaken
  branchesNeverTaken := a.branchesNeverTaken + b.branchesNeverTaken
  branchesExecutedBoth := a.branchesExecutedBoth + b.branchesExecutedBoth
  branchesNotExecuted := a.branchesNotExecuted + b.branchesNotExecuted

instance : Add Statistics := ⟨add⟩

end Statistics

structure Totals where
  symbols : Nat := 0
  unresolvedSymbols : Nat := 0
  stats : Statistics := {}
deriving DecidableEq, Repr

def Totals.ofSymbols (symbols : List Symbol) : Totals where
  symbols := symbols.length
  unresolvedSymbols := symbols.countP (!·.isResolved)
  stats := (symbols.map (·.stats)).foldl (· + ·) {}

end TraceCoverage

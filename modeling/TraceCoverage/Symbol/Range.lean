import TraceCoverage.Address

/-!
# Uncovered ranges

What the analysis of a symbol reports: runs of instructions that never executed, and branches of
which a direction was never seen.
-/

namespace TraceCoverage

/-- How a branch was exercised over all runs. -/
inductive BranchClass where
  /-- Only the path to its target was seen. -/
  | alwaysTaken
  /-- It ran, but the path to its target was never seen. -/
  | neverTaken
  | notExecuted
  | executedBoth
deriving DecidableEq, Repr

inductive BranchPath where
  | taken
  | fallThrough
deriving DecidableEq, Repr

namespace BranchClass

def unexercised : BranchClass → List BranchPath
  | alwaysTaken => [.fallThrough]
  | neverTaken => [.taken]
  | notExecuted => [.taken, .fallThrough]
  | executedBoth => []

def text : BranchClass → String
  | alwaysTaken => "always taken"
  | neverTaken => "never taken"
  | notExecuted => "not executed"
  | executedBoth => "executed both"

end BranchClass

inductive RangeKind where
  /-- Instructions that no run executed. -/
  | notExecuted
  /-- A branch of which a direction was never seen. -/
  | branch (verdict : BranchClass)
deriving DecidableEq, Repr

/-- A stretch of a symbol that the report points at, both ends included. -/
structure UncoveredRange where
  symbol : String
  start : Address
  last : Address
  /-- How many instructions start inside. -/
  instructions : Nat
  kind : RangeKind
deriving DecidableEq, Repr

namespace UncoveredRange

def sizeInBytes (r : UncoveredRange) : UInt32 := r.last - r.start + 1

def unexercised (r : UncoveredRange) : List BranchPath :=
  match r.kind with
  | .branch verdict => verdict.unexercised
  | .notExecuted => []

end UncoveredRange

end TraceCoverage

import TraceCoverage.Cli.Table
import TraceCoverage.Metrics
import TraceCoverage.Session.Run

/-!
# What a run prints

The totals, a line for each executable, and the counts of each symbol.
-/

namespace TraceCoverage

namespace Report

def totalRows (t : Totals) : List (String × Nat) :=
  [("symbols analyzed", t.symbols),
   ("symbols unresolved", t.unresolvedSymbols),
   ("bytes analyzed", t.stats.sizeInBytes),
   ("bytes not executed", t.stats.uncoveredBytes),
   ("% executed", t.stats.percentExecutedBytes),
   ("instructions analyzed", t.stats.sizeInInstructions),
   ("uncovered ranges", t.stats.uncoveredRanges),
   ("branches found", t.stats.branchesFound),
   ("branches uncovered", t.stats.branchesUncovered),
   ("branches always taken", t.stats.branchesAlwaysTaken),
   ("branches never taken", t.stats.branchesNeverTaken),
   ("branches not executed", t.stats.branchesNotExecuted)]

def totalsTable (r : Report) : Table where
  headers := ["", "count"]
  alignments := [.left, .right]
  rows := (totalRows r.totals).map fun (label, n) => [label, toString n]

/-- The counts of a symbol, or dashes for one that no executable has. -/
def symbolRow (s : Symbol) : List String :=
  s.name ::
    if s.isResolved then
      [s.stats.sizeInBytes, s.stats.uncoveredBytes, s.stats.uncoveredRanges,
        s.stats.branchesFound, s.stats.branchesUncovered, s.stats.percentExecutedBytes].map toString
    else List.replicate 5 "-" ++ ["unresolved"]

def symbolsTable (r : Report) : Table where
  headers :=
    ["symbol", "bytes", "uncovered bytes", "ranges", "branches", "uncovered branches", "% executed"]
  alignments := .left :: List.replicate 6 .right
  rows := r.registry.toList.map symbolRow

def executableLine (e : ExecutableSummary) : String :=
  e.path ++ ": " ++ toString e.symbols ++ " symbol(s), " ++ toString e.traces.matched ++ " of " ++
    toString e.traces.entries ++ " trace entries matched"

/-- Records the run, which took some seconds. -/
def record (r : Report) (seconds : Float) (m : Metrics) : Metrics :=
  r.executables.foldl (fun m e => m.recordTrace e.path e.traces.entries)
    (m.recordAnalysis r.totals r.executables.length seconds)

end Report

end TraceCoverage

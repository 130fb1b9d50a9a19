import TraceCoverage.Symbol.Basic
import TraceCoverage.Text.Fixed
import Std.Data.ExtTreeMap

/-!
# Metrics of a run

Counters, gauges and histograms by key, and the summary that is printed after a run.
-/

namespace TraceCoverage

structure Metrics where
  counters : Std.ExtTreeMap String Nat := ∅
  gauges : Std.ExtTreeMap String Float := ∅
  /-- Recorded values, the oldest first. -/
  histograms : Std.ExtTreeMap String (List Float) := ∅

namespace Metrics

/-- The recorder of a process. There is one at most, so a second one is refused. -/
def install? (installed : Option Metrics) : Option Metrics :=
  if installed.isSome then none else some {}

/-- A name, with its labels in braces if it has any. -/
def key (name : String) (labels : List (String × String)) : String :=
  if labels.isEmpty then name
  else
    name ++ "\x7b" ++ ",".intercalate (labels.map fun (k, v) => k ++ "=" ++ v) ++ "\x7d"

/-! ## Recording -/

def increment (m : Metrics) (key : String) (n : Nat) : Metrics :=
  { m with counters := m.counters.alter key fun old => some (old.getD 0 + n) }

def setCounter (m : Metrics) (key : String) (n : Nat) : Metrics :=
  { m with counters := m.counters.insert key n }

def setGauge (m : Metrics) (key : String) (x : Float) : Metrics :=
  { m with gauges := m.gauges.insert key x }

def alterGauge (m : Metrics) (key : String) (f : Float → Float) : Metrics :=
  { m with gauges := m.gauges.alter key fun old => some (f (old.getD 0)) }

def observe (m : Metrics) (key : String) (x : Float) : Metrics :=
  { m with histograms := m.histograms.alter key fun old => some (old.getD [] ++ [x]) }

def recordAnalysis (m : Metrics) (totals : Totals) (executables : Nat) (seconds : Float) : Metrics :=
  ((((((m.setCounter "xcov_executables_total" executables).setCounter
    "xcov_symbols_total" totals.symbols).setCounter
    "xcov_unresolved_symbols_total" totals.unresolvedSymbols).setCounter
    "xcov_uncovered_ranges_total" totals.stats.uncoveredRanges).setCounter
    "xcov_branches_uncovered_total" totals.stats.branchesUncovered).setGauge
    "xcov_executed_bytes_percent" totals.stats.percentExecutedBytes.toFloat).observe
    "xcov_analysis_duration_seconds" seconds

def recordTrace (m : Metrics) (executable : String) (entries : Nat) : Metrics :=
  m.increment (key "xcov_trace_entries_total" [("executable", executable)]) entries

/-! ## Summary -/

/-- The lesser of two numbers, passing over what is no number. Of equal ones it is the second, so
that the last of several zeros gives the sign. -/
def least (x y : Float) : Float := if y.isNaN then x else if x.isNaN || y ≤ x then y else x

def greatest (x y : Float) : Float := if y.isNaN then x else if x.isNaN || x ≤ y then y else x

def histogramLine (values : List Float) : String :=
  let infinity : Float := 1 / 0
  let average := values.foldl (· + ·) (-0.0) / values.length.toFloat
  "count=" ++ toString values.length ++
    ", min=" ++ Text.fixed 6 (values.foldl least infinity) ++
    ", max=" ++ Text.fixed 6 (values.foldl greatest (-infinity)) ++
    ", avg=" ++ Text.fixed 6 average

def part (title : String) (entries : List (String × String)) : String :=
  if entries.isEmpty then ""
  else
    "### " ++ title ++ "\n" ++
      String.join (entries.map fun (key, value) => "  " ++ key ++ ": " ++ value ++ "\n") ++ "\n"

/-- All metrics in the order of their keys. -/
def summary (m : Metrics) : String :=
  if m.counters.isEmpty && m.gauges.isEmpty && m.histograms.isEmpty then "No metrics collected.\n"
  else
    let written {α : Type} (text : α → String) (entries : List (String × α)) :=
      entries.map fun (key, value) => (key, text value)
    "\n## Metrics Summary\n\n" ++
      part "Counters" (written toString m.counters.toList) ++
      part "Gauges" (written (Text.fixed 2) m.gauges.toList) ++
      part "Histograms" (written histogramLine m.histograms.toList)

end Metrics

end TraceCoverage

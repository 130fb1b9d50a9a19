import TraceCoverage.Listing.Reader
import TraceCoverage.Session.Error
import TraceCoverage.Trace.Replay

/-!
# From listings and traces to totals

The steps of a run that need no files. Each executable is read and traced on its own; adoption and
merging then go through the executables in the order of the inputs.
-/

namespace TraceCoverage

structure ReadExecutable where
  executable : Executable
  resolved : List ResolvedSymbol

namespace Pipeline

/-- Runs a step for each element and keeps the state. The first failure ends the run. -/
def forEach {σ ε α β : Type} (step : σ → α → Outcome σ ε β) (state : σ) : List α → Outcome σ ε Unit
  | [] => { state, result := .ok () }
  | a :: rest =>
    let one := step state a
    match one.result with
    | .error cause => { state := one.state, result := .error cause, warnings := one.warnings }
    | .ok _ =>
      let others := forEach step one.state rest
      { others with warnings := one.warnings ++ others.warnings }

def adoptOne (r : Registry) (e : ReadExecutable) : Outcome Registry CoverageError Unit :=
  forEach (fun r s => s.adoptInto r e.executable.id) r e.resolved

/-- Hands all symbols to the registry, so that the first executable to have a symbol wins. -/
def adoptAll (r : Registry) (es : List ReadExecutable) : Outcome Registry CoverageError Unit :=
  forEach adoptOne r es

def mergeAll (r : Registry) (es : List Executable) : Outcome Registry CoverageError Unit :=
  forEach (fun r e => e.mergeInto r) r es

/-- Warns of symbols that no executable has, computes the ranges and counts. -/
def conclude (r : Registry) : Outcome Registry CoverageError Totals :=
  let counted := r.analyze.count
  { counted with warnings := r.unresolved.map .symbolNotFound ++ counted.warnings }

/-! ## A run in memory -/

/-- What is known about one executable: its listing and its traces, by their lines. -/
structure Recording where
  executable : Executable
  listing : List String
  traces : List (List String)

def replayAll (format : TraceFormat) (e : Executable) (traces : List (List String)) : Executable :=
  traces.foldl (fun e lines => (e.replay format { lines }).state) e

def readOne (t : Target) (wanted : String → Bool) (rec : Recording) :
    Except ListingError ReadExecutable :=
  let read := Listing.read t wanted rec.executable { lines := rec.listing }
  read.result.map fun resolved => { executable := read.state, resolved }

/-- A whole run over recordings: the registry and the totals. -/
def run (t : Target) (format : TraceFormat) (r : Registry) (recordings : List Recording) :
    Except SessionError (Registry × Totals) := do
  let read ← (recordings.mapM (readOne t r.contains)).mapError .listing
  let adopted := adoptAll r read
  adopted.result.mapError (.listing <| .coverage ·)
  let traced := (read.zip recordings).map fun (e, rec) =>
    replayAll format e.executable rec.traces
  let merged := mergeAll adopted.state traced
  merged.result.mapError .coverage
  let counted := conclude merged.state
  let totals ← counted.result.mapError .coverage
  return (counted.state, totals)

end Pipeline

end TraceCoverage

import TraceCoverage.Executable.Basic
import TraceCoverage.Trace.Format

/-!
# Replaying a trace

A walk along the executed instructions. Each is marked in the maps of the executable, and two
instructions in a row show which way a branch went. Only the address behind the branch and its
known target count; any other successor is a trap or an interrupt and says nothing.
-/

namespace TraceCoverage

structure TraceSummary where
  entries : Nat := 0
  matched : Nat := 0
deriving DecidableEq, Repr

instance : Add TraceSummary := ⟨fun a b => ⟨a.entries + b.entries, a.matched + b.matched⟩⟩

def Executable.recordDirection (e : Executable) (entry : TraceEntry) (next : Address) :
    Executable :=
  match e.mapAt? entry.pc with
  | none => e
  | some m =>
    if (m.flagsAt entry.pc).isBranch then
      if entry.next.or (m.nextStart? entry.pc) = some next then e.markDirection entry.pc false
      else if e.target? entry.pc = some next then e.markDirection entry.pc true
      else e
    else e

structure Replay where
  executable : Executable
  previous : Option TraceEntry := none
  summary : TraceSummary := {}

namespace Replay

def step (w : Replay) (entry : TraceEntry) : Replay :=
  let e :=
    match w.previous with
    | some previous => w.executable.recordDirection previous entry.pc
    | none => w.executable
  let matched := if (e.mapAt? entry.pc).isSome then 1 else 0
  { executable := e.markExecuted entry.pc
    previous := some entry
    summary := w.summary + ⟨1, matched⟩ }

def run (e : Executable) (entries : List TraceEntry) : Replay :=
  entries.foldl step { executable := e }

end Replay

/-- Replays a trace file. What comes before an unreadable line is recorded. -/
def Executable.replay (e : Executable) (format : TraceFormat) (stream : TextStream) :
    Outcome Executable ReadFailure TraceSummary :=
  let w := Replay.run e (stream.lines.filterMap format.entry?)
  { state := w.executable
    result :=
      match stream.failure with
      | some cause => .error cause
      | none => .ok w.summary }

end TraceCoverage

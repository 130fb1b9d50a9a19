import TraceCoverage.Executable.Basic
import TraceCoverage.Listing.Error
import TraceCoverage.Listing.LineKind
import TraceCoverage.Listing.Padding

/-!
# Reading the symbols of a listing

One pass over a listing. A wanted header opens a symbol, and the next header, a call before
jump-table data or the end of the listing closes it. A closed symbol loses its padding and gets an
entry and a map in its executable.
-/

namespace TraceCoverage

structure ResolvedSymbol where
  name : String
  base : Address
  size : UInt32
  lines : List CodeLine
deriving DecidableEq, Repr

namespace ResolvedSymbol

/-- Hands the symbol to the registry: its size makes the unified map on first use, and its lines
count if no executable came first. The result says whether they did. -/
def adoptInto (s : ResolvedSymbol) (r : Registry) (source : Nat) :
    Outcome Registry CoverageError Bool :=
  let made := r.unifiedMap s.name s.size
  match made.result with
  | .error e => { state := made.state, result := .error e }
  | .ok _ => made.state.adopt s.name s.base s.lines source

end ResolvedSymbol

namespace Listing

structure OpenSymbol where
  name : String
  start : Address
  /-- Its lines so far, the last one first. -/
  lines : List CodeLine
  /-- Where its last instruction starts. -/
  last : Option Address := none

structure Reader where
  executable : Executable
  current : Option OpenSymbol := none
  resolved : Array ResolvedSymbol := #[]
  warnings : List Warning := []

def codeLine (t : Target) (bias address : Address) (line : String) : CodeLine where
  address := some address
  text := line
  nop := t.nopSize line.toList
  branch :=
    if t.isBranchLine line.toList then
      some { target := (t.branchTarget line.toList).map (bias + ·) }
    else none

/-- The map of a symbol with the flags that its lines set. -/
def markMap (m : CoverageMap) (lines : List CodeLine) : CoverageMap :=
  lines.foldl (fun m l => (l.address.map fun a => m.set a l.flags).getD m) m

def noteTargets (e : Executable) (lines : List CodeLine) : Executable :=
  lines.foldl
    (fun e l =>
      match l.address, l.target? with
      | some a, some target => e.setTarget a target
      | _, _ => e)
    e

def register (e : Executable) (s : ResolvedSymbol) (last : Address) :
    Except CoverageError Executable :=
  match (e.addSymbol s.name s.base s.size).createMap s.name s.base last with
  | .error cause => .error cause
  | .ok e => .ok (noteTargets (e.updateMap s.name (markMap · s.lines)) s.lines)

namespace Reader

def warn (r : Reader) (w : Warning) : Reader := { r with warnings := r.warnings ++ [w] }

/-- Closes a symbol that reaches to `last`, padding included. -/
def close (r : Reader) (o : OpenSymbol) (last : Address) : Except CoverageError Reader :=
  let r := { r with current := none }
  let lines := o.lines.reverse
  let padding := Padding.bytes lines
  if last < padding ∨ last - padding < o.start then .ok (r.warn (.noCode o.name))
  else if r.executable.maps.contains o.name then
    .ok (r.warn (.definedTwice o.name r.executable.file))
  else
    let last := last - padding
    let symbol : ResolvedSymbol :=
      { name := o.name, base := o.start, size := last - o.start + 1
        lines := (Padding.trim lines).1 }
    match register r.executable symbol last with
    | .error cause => .error cause
    | .ok executable => .ok { r with executable, resolved := r.resolved.push symbol }

def closeCurrent (r : Reader) (last : Address) : Except CoverageError Reader :=
  match r.current with
  | some o => r.close o last
  | none => .ok r

def push (r : Reader) (l : CodeLine) : Reader :=
  { r with
    current := r.current.map fun o => { o with lines := l :: o.lines, last := l.address <|> o.last } }

def step (t : Target) (wanted : String → Bool) (r : Reader) (line : String) :
    Except CoverageError Reader :=
  let bias := r.executable.loadAddress
  match LineKind.ofLine t line.toList with
  | .header offset label =>
    match r.closeCurrent (bias + offset - 1) with
    | .error cause => .error cause
    | .ok r =>
      if wanted label then
        .ok { r with
          current := some { name := label, start := bias + offset, lines := [{ text := line }] } }
      else .ok r
  | .sentinel offset => r.closeCurrent (bias + offset - 1)
  | .instruction offset => .ok (r.push (codeLine t bias (bias + offset) line))
  | .text => .ok (r.push { text := line })

/-- Ends the listing. A symbol that is still open ends with the first byte of its last
instruction. -/
def finish (r : Reader) : Except CoverageError Reader :=
  match r.current with
  | some o => (r.warn (.openEnded o.name)).close o (o.last.getD o.start)
  | none => .ok r

def run (t : Target) (wanted : String → Bool) (r : Reader) (lines : List String) :
    Except CoverageError Reader :=
  lines.foldlM (step t wanted) r

end Reader

/-- Reads a listing of an executable: the wanted symbols, in the order of the listing. -/
def read (t : Target) (wanted : String → Bool) (e : Executable) (stream : TextStream) :
    Outcome Executable ListingError (List ResolvedSymbol) :=
  match Reader.run t wanted { executable := e } stream.lines with
  | .error cause => { state := e, result := .error (.coverage cause) }
  | .ok r =>
    match stream.failure with
    | some cause =>
      { state := r.executable, result := .error (.unreadable cause), warnings := r.warnings }
    | none =>
      match r.finish with
      | .error cause =>
        { state := r.executable, result := .error (.coverage cause), warnings := r.warnings }
      | .ok r =>
        { state := r.executable, result := .ok r.resolved.toList, warnings := r.warnings }

end Listing

end TraceCoverage

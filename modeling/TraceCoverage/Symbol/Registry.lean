import TraceCoverage.Symbol.Analysis
import TraceCoverage.Text.Blank

/-!
# The wanted symbols

A registry holds the symbols that the user wants analyzed, by name, and whether their ranges are
up to date. Each operation that can fail also says what state it leaves.
-/

namespace TraceCoverage

open Text

structure Registry where
  symbols : Std.ExtTreeMap String Symbol := ∅
  /-- The ranges were computed since the last merge. -/
  analyzed : Bool := false

namespace Registry

/-! ## The set of names -/

def contains (r : Registry) (name : String) : Bool := r.symbols.contains name

def find? (r : Registry) (name : String) : Option Symbol := r.symbols[name]?

def toList (r : Registry) : List Symbol := r.symbols.values

/-- Adds a symbol. One that is there stays as it is. -/
def insert (r : Registry) (name : String) : Registry :=
  { r with symbols := r.symbols.insertIfNew name { name } }

/-- The name on a line of a symbol list: its first word. Comments start with `#`. -/
def nameOnLine (line : String) : Option String :=
  match words line.toList with
  | [] => none
  | w :: _ => if w.head? == some '#' then none else some (String.ofList w)

/-- Adds the names of a symbol list. Names before an unreadable line are added. The result counts
the new ones. -/
def load (r : Registry) (stream : TextStream) : Outcome Registry CoverageError Nat :=
  let r' := (stream.lines.filterMap nameOnLine).foldl insert r
  { state := r'
    result :=
      match stream.failure with
      | some cause => .error (.unreadable cause)
      | none => .ok (r'.symbols.size - r.symbols.size) }

/-! ## Instructions and maps -/

/-- Takes the lines of a symbol from the first executable that resolves it. Later ones are
ignored, and the result says so. -/
def adopt (r : Registry) (name : String) (base : Address) (lines : List CodeLine) (source : Nat) :
    Outcome Registry CoverageError Bool :=
  match r.symbols[name]? with
  | none => { state := r, result := .error (.unknownSymbol name) }
  | some s =>
    if s.isResolved then { state := r, result := .ok false }
    else
      let s := { s with base, lines, source := some source }
      { state := { r with symbols := r.symbols.insert name s }, result := .ok true }

/-- The unified map of a symbol, made with `size` bytes on first use. -/
def unifiedMap (r : Registry) (name : String) (size : UInt32) :
    Outcome Registry CoverageError CoverageMap :=
  match r.symbols[name]? with
  | none => { state := r, result := .error (.unknownSymbol name) }
  | some s =>
    match s.unified with
    | some m => { state := r, result := .ok m }
    | none =>
      match CoverageMap.ofSize size with
      | .error e => { state := r, result := .error e }
      | .ok m =>
        let s := { s with unified := some m }
        { state := { r with symbols := r.symbols.insert name s }, result := .ok m }

/-- Merges a map into the unified map of a symbol. -/
def merge (r : Registry) (name : String) (m : CoverageMap) : Outcome Registry CoverageError Unit :=
  match r.symbols[name]? with
  | none => { state := r, result := .error (.unknownSymbol name) }
  | some s =>
    match s.unified with
    | none => { state := r, result := .error (.noUnifiedMap name) }
    | some unified =>
      let s := { s with unified := some (unified.merge m) }
      { state := { r with symbols := r.symbols.insert name s, analyzed := false }
        result := .ok ()
        warnings := unified.mergeWarnings m }

def update (r : Registry) (name : String) (f : Symbol → Symbol) : Registry :=
  { r with symbols := r.symbols.modify name f }

/-! ## Results -/

def analyze (r : Registry) : Registry where
  symbols := r.symbols.map fun _ s => s.analyze
  analyzed := true

def totals (r : Registry) : Totals := Totals.ofSymbols r.toList

/-- Counts every symbol. The ranges have to be up to date. -/
def count (r : Registry) : Outcome Registry CoverageError Totals :=
  if r.analyzed then
    let r := { r with symbols := r.symbols.map fun _ s => { s with stats := .ofSymbol s } }
    { state := r, result := .ok r.totals }
  else { state := r, result := .error .notAnalyzed }

def unresolved (r : Registry) : List String :=
  (r.toList.filter (!·.isResolved)).map (·.name)

end Registry

end TraceCoverage

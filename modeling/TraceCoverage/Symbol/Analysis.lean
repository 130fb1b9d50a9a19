import TraceCoverage.Symbol.Basic
import Std.Data.ExtTreeMap

/-!
# Uncovered ranges and branches of a symbol

The lines of the symbol mark its unified map. Then branches are classified, and only then padding
behind executed code is folded into the executed bytes, so that padding behind a branch never
counts as its fall-through path. What is left unexecuted makes the ranges.
-/

namespace TraceCoverage

/-- Branch offsets with the offsets of their targets. -/
abbrev TargetOffsets := Std.ExtTreeMap Address Address

namespace CoverageMap

/-! ## Marking -/

/-- The offset of an address from the base of its symbol. -/
def fromBase? (base a : Address) : Option Address := if base ≤ a then some (a - base) else none

/-- Marks the instruction of one line and notes where its branch goes. -/
def markLine (base : Address) (state : CoverageMap × TargetOffsets) (l : CodeLine) :
    CoverageMap × TargetOffsets :=
  match l.address.bind (fromBase? base) with
  | none => state
  | some offset =>
    let (m, targets) := state
    (m.set offset l.flags,
      match l.target?.bind (fromBase? base) with
      | some target => targets.insert offset target
      | none => targets)

def markLines (m : CoverageMap) (base : Address) (lines : List CodeLine) :
    CoverageMap × TargetOffsets :=
  lines.foldl (markLine base) (m, ∅)

/-! ## Branches -/

/-- What the flags around a branch say about its two paths. The directions that a trace recorded
decide. Without them the fall-through path was seen if the next instruction ran, and the taken
path if the target ran; a target outside the map cannot be watched and counts as seen. -/
def pathsSeen (m : CoverageMap) (branch : Address) (target : Option Address) : Bool × Bool :=
  let f := m.flagsAt branch
  if f.hasDirection then (f.isTaken, f.isNotTaken)
  else
    ((target.filter m.contains).all fun t => (m.flagsAt t).isExecuted,
      (m.nextStart? branch).any fun next => (m.flagsAt next).isExecuted)

def classify (m : CoverageMap) (branch : Address) (target : Option Address) : BranchClass :=
  if (m.flagsAt branch).isExecuted then
    match m.pathsSeen branch target with
    | (true, true) => .executedBoth
    | (true, false) => .alwaysTaken
    | (false, _) => .neverTaken
  else .notExecuted

def instructionEnd (m : CoverageMap) (a : Address) : Address :=
  ((m.nextStart? a).map (· - 1)).getD m.high

/-- Every branch of which a direction was never seen. -/
def uncoveredBranches (m : CoverageMap) (symbol : String) (base : Address)
    (targets : TargetOffsets) : List UncoveredRange :=
  (m.starts.filter fun a => (m.flagsAt a).isBranch).filterMap fun a =>
    match m.classify a targets[a]? with
    | .executedBoth => none
    | verdict =>
      some
        { symbol
          start := base + a
          last := base + m.instructionEnd a
          instructions := 1
          kind := .branch verdict }

/-! ## Padding -/

/-- One step of `fillPadding`: the map so far, and whether the code before is executed. -/
def fillStep (state : CoverageMap × Bool) (a : Address) : CoverageMap × Bool :=
  let (m, before) := state
  let f := m.flagsAt a
  if f.isNop && !f.isExecuted && before then (m.markExecuted a, before) else (m, f.isExecuted)

/-- Marks padding as executed that directly follows executed code. -/
def fillPadding (m : CoverageMap) : CoverageMap := (m.starts.foldl fillStep (m, false)).1

/-! ## Ranges -/

/-- The maximal runs of starts that are not executed: their first address, their last byte and
how many starts they have. A run ends one byte before the next executed start, or with the map;
`current` is the run that is still open. -/
def runs (m : CoverageMap) (current : Option (Address × Nat)) :
    List Address → List (Address × Address × Nat)
  | [] => (current.map fun (first, n) => (first, m.high, n)).toList
  | a :: rest =>
    if (m.flagsAt a).isExecuted then
      (current.map fun (first, n) => (first, a - 1, n)).toList ++ runs m none rest
    else
      match current with
      | some (first, n) => runs m (some (first, n + 1)) rest
      | none => runs m (some (a, 1)) rest

def uncoveredRanges (m : CoverageMap) (symbol : String) (base : Address) : List UncoveredRange :=
  (m.runs none m.starts).map fun (first, last, instructions) =>
    { symbol, start := base + first, last := base + last, instructions, kind := .notExecuted }

end CoverageMap

def Symbol.analyze (s : Symbol) : Symbol :=
  match s.unified with
  | none => s
  | some m =>
    let (marked, targets) := m.markLines s.base s.lines
    let filled := marked.fillPadding
    { s with
      unified := some filled
      branches := marked.uncoveredBranches s.name s.base targets
      ranges := filled.uncoveredRanges s.name s.base }

end TraceCoverage

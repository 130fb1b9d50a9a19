import TraceCoverage.Proofs.Run.Parts
import TraceCoverage.Proofs.Symbol.Folding

/-!
# Analyzing more than once

A registry may be analyzed between its merges. The padding that such an analysis folds stays in the
unified maps and is read by the next one, so a branch in front of it may get another verdict. It is
said here for which branches that happens.
-/

namespace TraceCoverage

open CoverageMap Pipeline

/-! ## One symbol -/

structure BranchReport where
  branches : List UncoveredRange
  alwaysTaken : Nat
  neverTaken : Nat
  executedBoth : Nat
  notExecuted : Nat
deriving DecidableEq

def BranchReport.ofBranches (count : Nat) (branches : List UncoveredRange) : BranchReport where
  branches
  alwaysTaken := Statistics.countClass .alwaysTaken branches
  neverTaken := Statistics.countClass .neverTaken branches
  executedBoth := count - branches.length
  notExecuted := Statistics.countClass .notExecuted branches

namespace CoverageMap

def branchCount (m : CoverageMap) : Nat := m.starts.countP fun a => (m.flagsAt a).isBranch

theorem Folds.branchCount_eq {m m' : CoverageMap} (h : m.Folds m') :
    m'.branchCount = m.branchCount := by
  have hbranches : ∀ a, (m'.flagsAt a).isBranch = (m.flagsAt a).isBranch :=
    h.meets (by decide)
  simp only [branchCount, h.starts_eq, hbranches]

end CoverageMap

namespace Symbol

variable {s s' : Symbol} {m : CoverageMap}

def branchReport (s : Symbol) : BranchReport where
  branches := s.branches
  alwaysTaken := s.stats.branchesAlwaysTaken
  neverTaken := s.stats.branchesNeverTaken
  executedBoth := s.stats.branchesExecutedBoth
  notExecuted := s.stats.branchesNotExecuted

def marked? (s : Symbol) : Option (CoverageMap × TargetOffsets) :=
  s.unified.map (·.markLines s.base s.lines)

theorem analyze_of_unified (hm : s.unified = some m) :
    s.analyze =
      { s with
        unified := some (m.markLines s.base s.lines).1.fillPadding
        branches := (m.markLines s.base s.lines).1.uncoveredBranches s.name s.base
          (m.markLines s.base s.lines).2
        ranges := (m.markLines s.base s.lines).1.fillPadding.uncoveredRanges s.name s.base } := by
  unfold analyze
  rw [hm]

theorem branchReport_concluded (hm : s.unified = some m) :
    (concluded s).branchReport =
      .ofBranches (m.markLines s.base s.lines).1.branchCount
        ((m.markLines s.base s.lines).1.uncoveredBranches s.name s.base
          (m.markLines s.base s.lines).2) := by
  rw [← (folds_fillPadding (m.markLines s.base s.lines).1).branchCount_eq, concluded,
    analyze_of_unified hm]
  rfl

/-- The other symbol is the same, but for what earlier analyses left: its map has folded padding,
and its ranges, branches and counts may be old. -/
structure FoldsTo (s s' : Symbol) : Prop where
  name : s'.name = s.name
  base : s'.base = s.base
  lines : s'.lines = s.lines
  marked : ∃ m m', s.unified = some m ∧ s'.unified = some m' ∧
    (m.markLines s.base s.lines).1.Folds (m'.markLines s.base s.lines).1

theorem analyze_of_none (hs : s.unified = none) : s.analyze = s := by
  unfold analyze
  rw [hs]

theorem foldsTo_self (hm : s.unified = some m) : s.FoldsTo s :=
  ⟨rfl, rfl, rfl, m, m, hm, hm, .refl _⟩

theorem FoldsTo.merging (h : s.FoldsTo s') (o : CoverageMap) :
    (s.merging o).FoldsTo (s'.merging o) := by
  obtain ⟨hname, hbase, hlines, m, m', hm, hm', hfolds⟩ := h
  refine ⟨hname, hbase, hlines, m.merge o, m'.merge o, ?_, ?_, ?_⟩
  · rw [Symbol.merging, hm]
    rfl
  · rw [Symbol.merging, hm']
    rfl
  · rw [Symbol.merging, markLines_merge, markLines_merge]
    exact hfolds.merge o

theorem FoldsTo.analyze (h : s.FoldsTo s') : s.FoldsTo s'.analyze := by
  obtain ⟨hname, hbase, hlines, m, m', hm, hm', hfolds⟩ := h
  rw [analyze_of_unified hm', hbase, hlines]
  refine ⟨hname, rfl, rfl, m, _, hm, rfl, ?_⟩
  rw [markLines_fillPadding]
  exact hfolds.fillPadding

theorem FoldsTo.branchReport_eq_iff (h : s.FoldsTo s') :
    (concluded s').branchReport = (concluded s).branchReport ↔
      ∀ once ∈ s.marked?, ∀ often ∈ s'.marked?, ∀ a ∈ once.1.starts,
        (once.1.flagsAt a).isBranch = true → ¬ once.1.Misread often.1 a once.2[a]? := by
  obtain ⟨hname, hbase, hlines, m, m', hm, hm', hfolds⟩ := h
  have hcount := hfolds.branchCount_eq
  rw [branchReport_concluded hm, branchReport_concluded hm', hname, hbase, hlines, hcount,
    targets_markLines s.base s.lines m' m]
  simp only [marked?, hm, hm', hbase, hlines, Option.map_some, Option.mem_def, Option.some.injEq,
    forall_eq']
  rw [← uncoveredBranches_eq_iff hfolds s.name s.base]
  constructor
  · intro heq
    exact congrArg BranchReport.branches heq
  · intro heq
    rw [heq]

end Symbol

/-! ## Steps on a registry -/

namespace Registry

inductive Step where
  | merge (name : String) (m : CoverageMap)
  | analyze

namespace Step

def isMerge : Step → Bool
  | merge .. => true
  | analyze => false

/-- The registry after a step. A merge that fails changes nothing. -/
def apply (r : Registry) : Step → Registry
  | merge name m => (r.merge name m).state
  | analyze => r.analyze

def applyTo (k : String) (s : Symbol) : Step → Symbol
  | merge name m => if name = k then s.merging m else s
  | analyze => s.analyze

end Step

def after (r : Registry) (steps : List Step) : Registry := steps.foldl Step.apply r

/-- What the last analysis and the counts after it say of the branches of a symbol. -/
def branchReport? (r : Registry) (k : String) : Option BranchReport :=
  (r.analyze.count.state.find? k).map Symbol.branchReport

def marked? (r : Registry) (k : String) : Option (CoverageMap × TargetOffsets) :=
  (r.find? k).bind Symbol.marked?

variable (r : Registry) (k : String)

theorem find?_apply (step : Step) :
    (step.apply r).find? k = (r.find? k).map fun s => step.applyTo k s := by
  cases step with
  | merge name m => exact find?_merge r k name m
  | analyze => exact Std.ExtTreeMap.getElem?_map

theorem find?_after (steps : List Step) :
    (r.after steps).find? k = (r.find? k).map fun s => steps.foldl (Step.applyTo k) s := by
  unfold after
  induction steps generalizing r with
  | nil => simp
  | cons step rest ih =>
    rw [List.foldl_cons, ih, find?_apply, Option.map_map]
    rfl

theorem branchReport?_eq :
    r.branchReport? k = (r.find? k).map fun s => (concluded s).branchReport := by
  have hstate : r.analyze.count.state = conclusion r := rfl
  rw [branchReport?, hstate, find?, getElem?_conclusion, Option.map_map]
  rfl

end Registry

namespace Symbol

open Registry

variable {s s' : Symbol} {k : String}

theorem foldl_applyTo_of_none (hs : s.unified = none) (steps : List Step) :
    steps.foldl (Step.applyTo k) s = s := by
  induction steps with
  | nil => rfl
  | cons step rest ih =>
    have hstep : step.applyTo k s = s := by
      cases step with
      | merge name m =>
        rw [Step.applyTo, merging_of_none hs]
        simp
      | analyze => exact analyze_of_none hs
    rw [List.foldl_cons, hstep, ih]

/-- A relation between symbols that merges keep, and analyses of the second one, holds after any
steps if the analyses are left out for the first one. -/
theorem rel_foldl_applyTo {R : Symbol → Symbol → Prop} {P : CoverageMap → Prop}
    (hmerge : ∀ {s s'} o, P o → R s s' → R (s.merging o) (s'.merging o))
    (hanalyze : ∀ {s s'}, R s s' → R s s'.analyze) {steps : List Step}
    (hsteps : ∀ o, .merge k o ∈ steps → P o) (h : R s s') :
    R ((steps.filter Step.isMerge).foldl (Step.applyTo k) s)
      (steps.foldl (Step.applyTo k) s') := by
  induction steps generalizing s s' with
  | nil => exact h
  | cons step rest ih =>
    have hrest : ∀ o, .merge k o ∈ rest → P o := fun o ho => hsteps o (List.mem_cons_of_mem _ ho)
    cases step with
    | merge name m =>
      rw [List.filter_cons_of_pos rfl, List.foldl_cons, List.foldl_cons]
      apply ih hrest
      by_cases hname : name = k
      · subst hname
        rw [Step.applyTo, Step.applyTo, if_pos rfl, if_pos rfl]
        exact hmerge m (hsteps m List.mem_cons_self) h
      · rw [Step.applyTo, Step.applyTo, if_neg hname, if_neg hname]
        exact h
    | analyze =>
      rw [List.filter_cons_of_neg (by simp [Step.isMerge]), List.foldl_cons]
      exact ih hrest (hanalyze h)

theorem FoldsTo.foldl_applyTo (h : s.FoldsTo s') (steps : List Step) :
    ((steps.filter Step.isMerge).foldl (Step.applyTo k) s).FoldsTo
      (steps.foldl (Step.applyTo k) s') :=
  rel_foldl_applyTo (R := FoldsTo) (P := fun _ => True) (fun o _ h => h.merging o)
    FoldsTo.analyze (fun _ _ => trivial) h

end Symbol

namespace Registry

/-- Analyses between the merges change what the last one says of the branches of a symbol exactly
if some branch is misread: then padding that was folded counts as its target or as the instruction
behind it. -/
theorem branchReport_after_iff (r : Registry) (steps : List Step) (k : String) :
    (r.after steps).branchReport? k = (r.after (steps.filter Step.isMerge)).branchReport? k ↔
      ∀ once ∈ (r.after (steps.filter Step.isMerge)).marked? k,
        ∀ often ∈ (r.after steps).marked? k, ∀ a ∈ once.1.starts,
          (once.1.flagsAt a).isBranch = true → ¬ once.1.Misread often.1 a once.2[a]? := by
  rw [branchReport?_eq, branchReport?_eq, marked?, marked?, find?_after, find?_after]
  cases r.find? k with
  | none => simp
  | some s =>
    simp only [Option.map_some, Option.some.injEq, Option.bind_some]
    cases hm : s.unified with
    | none =>
      rw [Symbol.foldl_applyTo_of_none hm, Symbol.foldl_applyTo_of_none hm]
      simp [Symbol.marked?, hm]
    | some m => exact ((Symbol.foldsTo_self hm).foldl_applyTo steps).branchReport_eq_iff

def jumpOverPadding : Registry :=
  let lines : List CodeLine := [
    { address := some 0x100, text := "je", branch := some {} },
    { address := some 0x102, text := "nop", nop := some 1 },
    { address := some 0x103, text := "ret" }]
  let adopted := (Registry.insert {} "f").adopt "f" 0x100 lines 0
  (adopted.state.unifiedMap "f" 4).state

def branchRan : CoverageMap where
  low := 0
  flags := #[.start ||| .executed, .executed, .start, .start]
  nonempty := by decide
  fits := by decide

/-- The branch is always taken, and went both ways once its map was analyzed before. -/
theorem branchReport_changed_by_padding :
    (jumpOverPadding.after [.merge "f" branchRan, .analyze]).branchReport? "f" ≠
      (jumpOverPadding.after [.merge "f" branchRan]).branchReport? "f" := by
  decide +kernel

end Registry

end TraceCoverage

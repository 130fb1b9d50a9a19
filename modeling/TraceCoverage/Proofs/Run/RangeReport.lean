import TraceCoverage.Proofs.Run.Growth

/-!
# Ranges of a registry that was analyzed more than once

An analysis between two merges leaves folded padding in the unified maps. The next fold would have
executed the same padding, whatever was merged before it, so that the last analysis finds the same
instructions executed, and reports the same ranges, as if it had been the only one.
-/

namespace TraceCoverage

open CoverageMap Pipeline

structure RangeReport where
  ranges : List UncoveredRange
  /-- The instructions of the unified map that ran. -/
  executed : Option (List Address)
  sizeInBytes : Nat
  sizeInInstructions : Nat
  uncoveredBytes : Nat
  uncoveredInstructions : Nat
  uncoveredRanges : Nat
deriving DecidableEq

namespace Symbol

variable {s s' : Symbol} {m : CoverageMap} {targets : TargetOffsets}

def rangeReport (s : Symbol) : RangeReport where
  ranges := s.ranges
  executed := s.unified.map (·.executedStarts)
  sizeInBytes := s.stats.sizeInBytes
  sizeInInstructions := s.stats.sizeInInstructions
  uncoveredBytes := s.stats.uncoveredBytes
  uncoveredInstructions := s.stats.uncoveredInstructions
  uncoveredRanges := s.stats.uncoveredRanges

/-- The other symbol is the same, but for what earlier analyses left, and a fold makes up for that.
Their maps have the layout of the first map still. -/
structure RefoldsTo (first : CoverageMap) (s s' : Symbol) : Prop where
  name : s'.name = s.name
  base : s'.base = s.base
  marked : ∃ m m' targets targets', s.marked? = some (m, targets) ∧
    s'.marked? = some (m', targets') ∧ m.Refolds m' ∧
      ∀ o : CoverageMap, o.WithinLayout first → o.WithinLayout m

theorem refoldsTo_self (h : s.marked? = some (m, targets)) : RefoldsTo m s s :=
  ⟨rfl, rfl, m, m, targets, targets, h, h, .refl m, fun _ ho => ho⟩

variable {first : CoverageMap}

theorem RefoldsTo.analyze (h : RefoldsTo first s s') : RefoldsTo first s s'.analyze := by
  obtain ⟨hname, hbase, m, m', targets, targets', hm, hm', hrefolds, hlayout⟩ := h
  obtain ⟨hname', hbase', _, _⟩ := s'.analyze_frame
  exact ⟨hname'.trans hname, hbase'.trans hbase, m, _, _, _, hm, marked?_analyze hm',
    hrefolds.fillPadding, hlayout⟩

theorem RefoldsTo.merging (o : CoverageMap) (ho : o.WithinLayout first)
    (h : RefoldsTo first s s') : RefoldsTo first (s.merging o) (s'.merging o) := by
  obtain ⟨hname, hbase, m, m', targets, targets', hm, hm', hrefolds, hlayout⟩ := h
  exact ⟨hname, hbase, _, _, _, _, marked?_merging hm o, marked?_merging hm' o,
    hrefolds.merge (hlayout o ho), fun o' ho' => (hlayout o' ho').merge o⟩

theorem RefoldsTo.rangeReport_eq (h : RefoldsTo first s s') :
    (concluded s').rangeReport = (concluded s).rangeReport := by
  obtain ⟨hname, hbase, m, m', targets, targets', hm, hm', hrefolds, _⟩ := h
  have ha := analyzed_concluded hm
  have ha' := analyzed_concluded hm'
  obtain ⟨hname₁, hbase₁, _, _⟩ := s.analyze_frame
  obtain ⟨hname₂, hbase₂, _, _⟩ := s'.analyze_frame
  have hranges : (concluded s').ranges = (concluded s).ranges := by
    rw [ha.ranges, ha'.ranges, concluded, concluded]
    dsimp only
    rw [hname₁, hname₂, hbase₁, hbase₂, hname, hbase, hrefolds.uncoveredRanges_eq]
  have hsize : m'.fillPadding.size = m.fillPadding.size := by
    rw [size_fillPadding, size_fillPadding, hrefolds.folds.sameStarts.size]
  have hcount : m'.fillPadding.startCount = m.fillPadding.startCount := by
    rw [startCount_eq, startCount_eq, hrefolds.starts_fillPadding_eq]
  simp only [rangeReport, ha.stats, ha'.stats, Statistics.ofSymbol, ha.unified, ha'.unified,
    hranges, hsize, hcount, Option.map_some, hrefolds.executedStarts_eq]

end Symbol

namespace Registry

/-- What the last analysis and the counts after it say of the instructions of a symbol. -/
def rangeReport? (r : Registry) (k : String) : Option RangeReport :=
  (r.analyze.count.state.find? k).map Symbol.rangeReport

variable (r : Registry) (k : String)

theorem rangeReport?_eq :
    r.rangeReport? k = (r.find? k).map fun s => (concluded s).rangeReport := by
  have hstate : r.analyze.count.state = conclusion r := rfl
  rw [rangeReport?, hstate, find?, getElem?_conclusion, Option.map_map]
  rfl

/-- Analyses between merges of maps of the same code change nothing of what the last one says of the
instructions of a symbol: which of them ran, the ranges of those that did not, and the counts. -/
theorem rangeReport?_after {r : Registry} {steps : List Step} {k : String}
    (h : ∀ m targets, r.marked? k = some (m, targets) →
      ∀ o, .merge k o ∈ steps → o.WithinLayout m) :
    (r.after steps).rangeReport? k = (r.after (steps.filter Step.isMerge)).rangeReport? k := by
  rw [rangeReport?_eq, rangeReport?_eq, find?_after, find?_after]
  cases hs : r.find? k with
  | none => rfl
  | some s =>
    rw [Option.map_some, Option.map_some, Option.map_some, Option.map_some, Option.some.injEq]
    cases hm : s.marked? with
    | none =>
      have hnone : s.unified = none := Option.map_eq_none_iff.1 hm
      rw [Symbol.foldl_applyTo_of_none hnone, Symbol.foldl_applyTo_of_none hnone]
    | some marked =>
      obtain ⟨m, targets⟩ := marked
      have hlayout := h m targets (Option.bind_eq_some_iff.2 ⟨s, hs, hm⟩)
      exact (Symbol.rel_foldl_applyTo (R := Symbol.RefoldsTo m) Symbol.RefoldsTo.merging
        Symbol.RefoldsTo.analyze hlayout (Symbol.refoldsTo_self hm)).rangeReport_eq

def paddedInside : Registry :=
  let lines : List CodeLine := [
    { address := some 0x100, text := "inc %eax" },
    { address := some 0x101, text := "nop", nop := some 1 },
    { address := some 0x102, text := "ret" }]
  let adopted := (Registry.insert {} "f").adopt "f" 0x100 lines 0
  (adopted.state.unifiedMap "f" 3).state

def ranAt (i : Nat) : CoverageMap where
  low := 0
  flags := (#[.start, .start ||| .nop, .start] : Array Flags).modify i (·.union .executed)
  nonempty := by simp
  fits := by simp

theorem rangeReport?_after_padded :
    (paddedInside.after [.merge "f" (ranAt 0), .analyze, .merge "f" (ranAt 2)]).rangeReport? "f" =
      (paddedInside.after [.merge "f" (ranAt 0), .merge "f" (ranAt 2)]).rangeReport? "f" := by
  have hlayout : (paddedInside.marked? "f").all (fun marked =>
      (ranAt 0).WithinLayout marked.1 ∧ (ranAt 2).WithinLayout marked.1) = true := by
    decide +kernel
  refine rangeReport?_after fun m targets hm o ho => ?_
  rw [hm, Option.all_some, decide_eq_true_eq] at hlayout
  simp only [List.mem_cons, List.not_mem_nil, Step.merge.injEq, reduceCtorEq, true_and, false_or,
    or_false] at ho
  rcases ho with rfl | rfl
  · exact hlayout.1
  · exact hlayout.2

end Registry

end TraceCoverage

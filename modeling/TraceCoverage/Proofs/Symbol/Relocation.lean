import TraceCoverage.Proofs.Listing.Relocation
import TraceCoverage.Symbol.Analysis

/-!
# A symbol at another load address

The analysis of a symbol works with offsets from its base. If the base and all addresses of its
lines move together, and none of them wraps, the unified map and the counts stay what they are, and
the report moves along.
-/

namespace TraceCoverage

def UncoveredRange.shift (b : Address) (r : UncoveredRange) : UncoveredRange :=
  { r with start := b + r.start, last := b + r.last }

theorem UncoveredRange.sizeInBytes_shift (b : Address) (r : UncoveredRange) :
    (r.shift b).sizeInBytes = r.sizeInBytes := by
  have hsize (start last : Address) : b + last - (b + start) + 1 = last - start + 1 := by
    grind
  exact hsize r.start r.last

namespace CoverageMap

variable {b base : Address} {lines : List CodeLine} (m : CoverageMap)

theorem fromBase?_shift {a : Address} (hbase : Address.Fits b base) (ha : Address.Fits b a) :
    fromBase? (b + base) (b + a) = fromBase? base a := by
  have hoffset : b + a - (b + base) = a - base := by
    grind
  simp only [fromBase?, hbase.add_le_add_iff ha, hoffset]

theorem markLine_shift {l : CodeLine} (hbase : Address.Fits b base) (hl : l.Fits b)
    (state : CoverageMap × TargetOffsets) :
    markLine (b + base) state (l.shift b) = markLine base state l := by
  have haddress : (l.shift b).address.bind (fromBase? (b + base)) =
      l.address.bind (fromBase? base) := by
    cases ha : l.address with
    | none => simp [CodeLine.shift, ha]
    | some a => simp [CodeLine.shift, ha, fromBase?_shift hbase (hl a (.inl ha))]
  have htarget : (l.shift b).target?.bind (fromBase? (b + base)) =
      l.target?.bind (fromBase? base) := by
    rw [CodeLine.target?_shift]
    cases ha : l.target? with
    | none => rfl
    | some a => exact fromBase?_shift hbase (hl a (.inr ha))
  rw [markLine, markLine, haddress, htarget, CodeLine.flags_shift]

theorem markLines_shift (hbase : Address.Fits b base) (hlines : ∀ l ∈ lines, l.Fits b) :
    m.markLines (b + base) (lines.map (CodeLine.shift b)) = m.markLines base lines := by
  rw [markLines, markLines, List.foldl_map]
  exact List.foldl_ext _ _ _ fun state l hl => markLine_shift hbase (hlines l hl) state

theorem uncoveredBranches_shift (symbol : String) (targets : TargetOffsets) :
    m.uncoveredBranches symbol (b + base) targets =
      (m.uncoveredBranches symbol base targets).map (UncoveredRange.shift b) := by
  rw [uncoveredBranches, uncoveredBranches, List.map_filterMap]
  congr 1
  funext a
  cases m.classify a targets[a]? <;>
    simp [UncoveredRange.shift, UInt32.add_assoc]

theorem uncoveredRanges_shift (symbol : String) :
    m.uncoveredRanges symbol (b + base) =
      (m.uncoveredRanges symbol base).map (UncoveredRange.shift b) := by
  simp only [uncoveredRanges, List.map_map, Function.comp_def, UncoveredRange.shift,
    UInt32.add_assoc]

end CoverageMap

namespace Symbol

def shift (b : Address) (s : Symbol) : Symbol :=
  { s with
    base := b + s.base
    lines := s.lines.map (CodeLine.shift b)
    ranges := s.ranges.map (UncoveredRange.shift b)
    branches := s.branches.map (UncoveredRange.shift b) }

structure Fits (b : Address) (s : Symbol) : Prop where
  base : Address.Fits b s.base
  lines : ∀ l ∈ s.lines, l.Fits b

variable {b : Address} {s : Symbol}

theorem Fits.analyze_shift (h : s.Fits b) : (s.shift b).analyze = s.analyze.shift b := by
  unfold analyze
  have hunified : (s.shift b).unified = s.unified := rfl
  rw [hunified]
  cases s.unified with
  | none => rfl
  | some m =>
    have hmarked : m.markLines (s.shift b).base (s.shift b).lines = m.markLines s.base s.lines :=
      m.markLines_shift h.base h.lines
    simp only [hmarked]
    simp only [shift, CoverageMap.uncoveredBranches_shift, CoverageMap.uncoveredRanges_shift]

end Symbol

theorem Statistics.ofSymbol_shift (b : Address) (s : Symbol) : ofSymbol (s.shift b) = ofSymbol s := by
  have hclass (verdict : BranchClass) (ranges : List UncoveredRange) :
      countClass verdict (ranges.map (UncoveredRange.shift b)) = countClass verdict ranges := by
    rw [countClass, List.countP_map]
    rfl
  unfold ofSymbol
  have hunified : (s.shift b).unified = s.unified := rfl
  rw [hunified]
  cases s.unified with
  | none => rfl
  | some m =>
    simp only [Symbol.shift, hclass, List.map_map, List.length_map, Function.comp_def,
      UncoveredRange.sizeInBytes_shift]
    rfl

end TraceCoverage

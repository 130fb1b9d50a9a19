import TraceCoverage.Proofs.Symbol.Carrying
import TraceCoverage.Proofs.Symbol.Extremes

/-!
# Reports of growing maps

Merging a map of the same code takes no execution away, and so leaves no byte missed that was not.
A branch that went both ways stays so too, with one exception: as long as no direction of it is
known, it is judged by what ran behind it, and a single direction that comes to be known replaces
that judgement.
-/

namespace TraceCoverage.CoverageMap

variable {m m' o : CoverageMap} {a : Address} {i : Nat} {l : List Address}

/-! ## Missed bytes -/

theorem misses_mono (h : m.SameStarts m')
    (hran : ∀ j, m.isStartAt j = true → (m.byte j).isExecuted = true →
      (m'.byte j).isExecuted = true)
    (hi : i < m.size) (hmisses : m'.misses i = true) : m.misses i = true := by
  by_cases hreached : ∃ j ≤ i, m.isStartAt j = true
  · obtain ⟨j, hji, hj⟩ := hreached
    obtain ⟨first, hstart, hspans⟩ := exists_start_spans hj hji hi
    rw [misses_of_spans (h.starts first ▸ hstart) (h.spans_iff.1 hspans)] at hmisses
    rw [misses_of_spans hstart hspans]
    by_contra hfirst
    rw [hran first hstart (by simpa using hfirst)] at hmisses
    cases hmisses
  · have hno : ∀ j ≤ i, m'.isStartAt j = false := by
      intro j hj
      rw [← h.starts, Bool.eq_false_iff]
      exact fun hstart => hreached ⟨j, hj, hstart⟩
    rw [misses_of_no_start (h.size ▸ hi) hno] at hmisses
    cases hmisses

namespace WithinLayout

variable (ho : o.WithinLayout m)
include ho

theorem sameStarts_fillPadding_merge :
    m.fillPadding.SameStarts (m.merge o).fillPadding :=
  (folds_fillPadding m).sameStarts.symm.trans
    (ho.sameStarts_merge.trans (folds_fillPadding _).sameStarts)

theorem isExecuted_fillPadding_merge (hstart : m.isStartAt i = true)
    (hran : (m.fillPadding.byte i).isExecuted = true) :
    ((m.merge o).fillPadding.byte i).isExecuted = true := by
  rw [isExecuted_fillPadding hstart] at hran
  rw [isExecuted_fillPadding ((ho.isStartAt_merge i).trans hstart)]
  exact ho.carries_merge hran

theorem misses_fillPadding_merge (hi : i < m.size)
    (hmisses : (m.merge o).fillPadding.misses i = true) : m.fillPadding.misses i = true := by
  refine misses_mono ho.sameStarts_fillPadding_merge (fun j hj hran => ?_) (by simpa using hi)
    hmisses
  exact ho.isExecuted_fillPadding_merge ((folds_fillPadding m).sameStarts.starts j ▸ hj) hran

theorem countP_fillPadding_merge :
    (m.merge o).fillPadding.starts.countP
        (fun a => !((m.merge o).fillPadding.flagsAt a).isExecuted) ≤
      m.fillPadding.starts.countP fun a => !(m.fillPadding.flagsAt a).isExecuted := by
  have hsame := ho.sameStarts_fillPadding_merge
  have hlow : (m.merge o).fillPadding.low = m.fillPadding.low := by simp
  rw [hsame.starts_eq hlow]
  refine List.countP_mono_left fun a ha hleft => ?_
  obtain ⟨i, hi, hstart, rfl⟩ := mem_starts.1 ha
  have hstart' : m.isStartAt i = true := (folds_fillPadding m).sameStarts.starts i ▸ hstart
  rw [flagsAt_address_of_low hlow (hsame.size ▸ hi), Bool.not_eq_true', Bool.eq_false_iff] at hleft
  rw [flagsAt_address hi, Bool.not_eq_true', Bool.eq_false_iff]
  exact fun hran => hleft (ho.isExecuted_fillPadding_merge hstart' hran)

end WithinLayout

/-! ## Ranges -/

theorem runs_congr (hhigh : m'.high = m.high)
    (h : ∀ a ∈ l, (m'.flagsAt a).isExecuted = (m.flagsAt a).isExecuted)
    (current : Option (Address × Nat)) : m'.runs current l = m.runs current l := by
  induction l generalizing current with
  | nil => rw [runs, runs, hhigh]
  | cons a rest ih =>
    obtain ⟨ha, hrest⟩ := List.forall_mem_cons.1 h
    rw [runs_cons, runs_cons, ha, ih hrest, ih hrest]

theorem sum_count_runs (current : Option (Address × Nat)) (l : List Address) :
    ((m.runs current l).map (·.2.2)).foldr (· + ·) 0 =
      (current.map (·.2)).getD 0 + l.countP fun a => !(m.flagsAt a).isExecuted := by
  induction l generalizing current with
  | nil => cases current <;> simp [runs]
  | cons a rest ih =>
    rw [runs_cons, List.countP_cons]
    cases hran : (m.flagsAt a).isExecuted with
    | true => cases current <;> simp [ih]
    | false =>
      cases current <;> simp [ih, extend]
      all_goals omega

variable {name : String} {base : Address}

theorem sum_instructions_uncoveredRanges (name : String) (base : Address) :
    ((m.uncoveredRanges name base).map (·.instructions)).foldr (· + ·) 0 =
      m.starts.countP fun a => !(m.flagsAt a).isExecuted := by
  have hsum := m.sum_count_runs none m.starts
  rw [Option.map_none, Option.getD_none, Nat.zero_add] at hsum
  rw [← hsum, uncoveredRanges, List.map_map]
  rfl

theorem any_covers_iff :
    (m.uncoveredRanges name base).any (fun r => (r.relative base).covers a) = true ↔
      ∃ i < m.size, m.address i = a ∧ m.misses i = true := by
  have hruns : (m.uncoveredRanges name base).any (fun r => (r.relative base).covers a) =
      (m.runs none m.starts).any (inRun a) := by
    rw [uncoveredRanges, List.any_map]
    congr 1
    funext run
    simp only [Function.comp_apply, UncoveredRange.relative, UncoveredRange.covers, inRun,
      Address.add_sub_base]
  rw [hruns, List.any_eq_true]
  constructor
  · rintro ⟨run, hrun, hin⟩
    obtain ⟨hfirst, hlast, _⟩ := bounds_of_mem_runs_starts hrun
    rw [contains_iff] at hfirst hlast
    have hbounds := hin
    simp only [inRun, Bool.and_eq_true, decide_eq_true_eq, UInt32.le_iff_toNat_le] at hbounds
    obtain ⟨i, hi⟩ := exists_offset? (contains_iff.2 (by omega) : m.contains a = true)
    obtain rfl := eq_address_of_offset? hi
    have hlt := (offset?_eq_some_iff.1 hi).1
    refine ⟨i, hlt, rfl, ?_⟩
    -- No run holds a byte that is not missed, and this one holds the byte.
    by_contra hmisses
    have hcount := countP_runs_starts hlt
    rw [if_neg hmisses, List.countP_eq_zero] at hcount
    exact hcount run hrun hin
  · rintro ⟨i, hi, rfl, hmisses⟩
    have hcount := countP_runs_starts hi
    rw [if_pos hmisses] at hcount
    exact List.countP_pos_iff.1 (by omega)

/-! ## Ranges of maps that a fold makes alike -/

def executedStarts (m : CoverageMap) : List Address :=
  m.starts.filter fun a => (m.flagsAt a).isExecuted

namespace Refolds

variable (h : m.Refolds m')
include h

theorem isExecuted_fillPadding_eq (ha : a ∈ m.starts) :
    (m'.fillPadding.flagsAt a).isExecuted = (m.fillPadding.flagsAt a).isExecuted := by
  obtain ⟨i, hi, hstart, rfl⟩ := mem_starts.1 ha
  have hstart' : m'.isStartAt i = true := h.folds.sameStarts.starts i ▸ hstart
  have hi' : i < m'.size := h.folds.sameStarts.size ▸ hi
  rw [flagsAt_address_of_low (low_fillPadding m) (by simpa using hi),
    flagsAt_address_of_low ((low_fillPadding m').trans h.folds.low_eq) (by simpa using hi'),
    isExecuted_fillPadding hstart, isExecuted_fillPadding hstart', h.carries]

theorem starts_fillPadding_eq : m'.fillPadding.starts = m.fillPadding.starts := by
  rw [(folds_fillPadding m').starts_eq, (folds_fillPadding m).starts_eq, h.folds.starts_eq]

theorem executedStarts_eq : m'.fillPadding.executedStarts = m.fillPadding.executedStarts := by
  rw [executedStarts, executedStarts, h.starts_fillPadding_eq]
  refine List.filter_congr fun a ha => ?_
  rw [(folds_fillPadding m).starts_eq] at ha
  exact h.isExecuted_fillPadding_eq ha

theorem uncoveredRanges_eq (name : String) (base : Address) :
    m'.fillPadding.uncoveredRanges name base = m.fillPadding.uncoveredRanges name base := by
  have hsame := h.folds.fillPadding
  have hhigh : m'.fillPadding.high = m.fillPadding.high := by
    rw [hsame.sameStarts.high_eq hsame.low_eq,
      (folds_fillPadding m).sameStarts.high_eq (low_fillPadding m)]
  rw [uncoveredRanges, uncoveredRanges, h.starts_fillPadding_eq]
  congr 1
  refine runs_congr hhigh (fun a ha => ?_) none
  rw [(folds_fillPadding m).starts_eq] at ha
  exact h.isExecuted_fillPadding_eq ha

end Refolds

/-! ## Branches -/

def branchOffsets (m : CoverageMap) : List Nat :=
  (List.range m.size).filter fun i => m.isStartAt i && (m.byte i).isBranch

def verdictAt (m : CoverageMap) (targets : TargetOffsets) (i : Nat) : BranchClass :=
  m.classify (m.address i) targets[m.address i]?

/-- The other map knows one direction only of a branch of which none was known. -/
def narrows (m o : CoverageMap) (i : Nat) : Bool :=
  !(m.byte i).hasDirection && ((o.byte i).isTaken != (o.byte i).isNotTaken)

namespace Folds

variable (h : m.Folds m')
include h

theorem isExecuted_merge (hran : (m.flagsAt a).isExecuted = true) :
    ((m'.merge o).flagsAt a).isExecuted = true := by
  have hran' := h.isExecuted hran
  by_cases ha : m'.contains a = true
  · obtain ⟨k, hk⟩ := exists_offset? ha
    rw [merge_eq_mark, flagsAt_mark _ hk, Flags.isExecuted_union, hran', Bool.true_or]
  · rw [flagsAt_of_not_contains ha] at hran'
    cases hran'

theorem flagsAt_merge (hi : i < m.size) (o : CoverageMap) :
    (m'.merge o).flagsAt (m.address i) = (m'.byte i).union (o.byte i) := by
  have hi' : i < m'.size := h.sameStarts.size ▸ hi
  rw [flagsAt_address_of_low (low_merge.trans h.low_eq) (by simpa using hi'), byte_merge hi']

theorem directions_merge (hi : i < m.size) (o : CoverageMap) :
    ((m'.merge o).flagsAt (m.address i)).isTaken = ((m.byte i).isTaken || (o.byte i).isTaken) ∧
      ((m'.merge o).flagsAt (m.address i)).isNotTaken =
        ((m.byte i).isNotTaken || (o.byte i).isNotTaken) := by
  have htaken : (m'.byte i).isTaken = (m.byte i).isTaken := h.meets_byte (by decide) i
  have hnotTaken : (m'.byte i).isNotTaken = (m.byte i).isNotTaken := h.meets_byte (by decide) i
  rw [h.flagsAt_merge hi, Flags.isTaken_union, Flags.isNotTaken_union, htaken, hnotTaken]
  exact ⟨rfl, rfl⟩

end Folds

section

variable (hfolds : m.Folds m') (ho : o.WithinLayout m)
include hfolds ho

theorem sameStarts_folds_merge : m.SameStarts (m'.merge o) :=
  hfolds.sameStarts.trans (ho.of_folds hfolds).sameStarts_merge

theorem branchOffsets_folds_merge : (m'.merge o).branchOffsets = m.branchOffsets := by
  have hsame := sameStarts_folds_merge hfolds ho
  rw [branchOffsets, branchOffsets, ← hsame.size]
  refine List.filter_congr fun i hi => ?_
  have hi' : i < m'.size := hfolds.sameStarts.size ▸ List.mem_range.1 hi
  have hbranch : (m'.byte i).isBranch = (m.byte i).isBranch := hfolds.meets_byte (by decide) i
  rw [← hsame.starts, (ho.of_folds hfolds).isBranch_merge hi', hbranch]

theorem both_folds_merge_of_not_hasDirection {target : Option Address}
    (hdirection : (m.flagsAt a).hasDirection = false)
    (hdirection' : ((m'.merge o).flagsAt a).hasDirection = false)
    (hboth : m.classify a target = .executedBoth) :
    (m'.merge o).classify a target = .executedBoth := by
  have hsame := sameStarts_folds_merge hfolds ho
  have hlow : (m'.merge o).low = m.low := low_merge.trans hfolds.low_eq
  rw [classify_eq_executedBoth_iff_of_not_hasDirection hdirection] at hboth
  rw [classify_eq_executedBoth_iff_of_not_hasDirection hdirection', hsame.contains_eq hlow,
    hsame.nextStart?_eq hlow]
  obtain ⟨hran, hseen, next, hnext, hfell⟩ := hboth
  exact ⟨hfolds.isExecuted_merge hran, fun t ht hin => hfolds.isExecuted_merge (hseen t ht hin),
    next, hnext, hfolds.isExecuted_merge hfell⟩

/-- A branch that went both ways does so in the merged map, unless the other map narrows it. -/
theorem both_folds_merge_iff (hi : i < m.size) {target : Option Address}
    (hboth : m.classify (m.address i) target = .executedBoth) :
    (m'.merge o).classify (m.address i) target = .executedBoth ↔ m.narrows o i = false := by
  obtain ⟨htaken, hnotTaken⟩ := hfolds.directions_merge hi o
  have hran : (m.flagsAt (m.address i)).isExecuted = true := by
    rw [← Bool.not_eq_false, ← classify_eq_notExecuted_iff target, hboth]
    simp
  have hran' : ((m'.merge o).flagsAt (m.address i)).isExecuted = true :=
    hfolds.isExecuted_merge hran
  have hflags : m.flagsAt (m.address i) = m.byte i := flagsAt_address hi
  rw [narrows]
  cases hdirection : (m.byte i).hasDirection with
  | true =>
    -- Both directions were known, and stay so.
    rw [← hflags] at hdirection
    obtain ⟨_, htakes, hfalls⟩ :=
      (classify_eq_executedBoth_iff_of_hasDirection hdirection target).1 hboth
    rw [← hflags, htakes, Bool.true_or] at htaken
    rw [← hflags, hfalls, Bool.true_or] at hnotTaken
    have hdirection' : ((m'.merge o).flagsAt (m.address i)).hasDirection = true := by
      rw [Flags.hasDirection_eq, htaken, Bool.true_or]
    rw [classify_eq_executedBoth_iff_of_hasDirection hdirection']
    exact iff_of_true ⟨hran', htaken, hnotTaken⟩ rfl
  | false =>
    -- The directions of the merged map are those of the other map.
    have hnone := hdirection
    rw [Flags.hasDirection_eq, Bool.or_eq_false_iff] at hnone
    rw [hnone.1, Bool.false_or] at htaken
    rw [hnone.2, Bool.false_or] at hnotTaken
    rw [Bool.not_false, Bool.true_and, bne_eq_false_iff_eq]
    cases hdirection' : ((m'.merge o).flagsAt (m.address i)).hasDirection with
    | true =>
      have hsome := hdirection'
      rw [Flags.hasDirection_eq, htaken, hnotTaken] at hsome
      rw [classify_eq_executedBoth_iff_of_hasDirection hdirection', htaken, hnotTaken]
      cases htakes : (o.byte i).isTaken <;> cases hfalls : (o.byte i).isNotTaken <;> simp_all
    | false =>
      have hneither := hdirection'
      rw [Flags.hasDirection_eq, Bool.or_eq_false_iff, htaken, hnotTaken] at hneither
      refine iff_of_true ?_ (hneither.1.trans hneither.2.symm)
      exact both_folds_merge_of_not_hasDirection hfolds ho (hflags ▸ hdirection) hdirection' hboth

end

/-! ## Uncovered branches -/

theorem starts_filter_isBranch :
    (m.starts.filter fun a => (m.flagsAt a).isBranch) = m.branchOffsets.map m.address := by
  have hsize : m.flags.size = m.size := rfl
  rw [starts, branchOffsets, List.filter_map, List.filter_filter, hsize]
  congr 1
  refine List.filter_congr fun i hi => ?_
  rw [Function.comp_apply, flagsAt_address (List.mem_range.1 hi), Bool.and_comm]

theorem length_uncoveredBranches (name : String) (base : Address) (targets : TargetOffsets) :
    (m.uncoveredBranches name base targets).length =
      m.branchOffsets.countP fun i => m.verdictAt targets i != .executedBoth := by
  rw [uncoveredBranches, List.length_filterMap_eq_countP, starts_filter_isBranch, List.countP_map]
  refine List.countP_congr fun i _ => ?_
  rw [Function.comp_apply, verdictAt]
  cases m.classify (m.address i) targets[m.address i]? <;> simp

theorem kind_of_mem_uncoveredBranches {targets : TargetOffsets} {r : UncoveredRange}
    (hr : r ∈ m.uncoveredBranches name base targets) :
    ∃ verdict, r.kind = .branch verdict ∧ verdict ≠ .executedBoth := by
  obtain ⟨a, _, hentry⟩ := List.mem_filterMap.1 hr
  cases hverdict : m.classify a targets[a]? <;> rw [hverdict] at hentry
  case executedBoth => cases hentry
  all_goals
    obtain rfl := Option.some.inj hentry
    exact ⟨_, rfl, by simp⟩

end TraceCoverage.CoverageMap

namespace TraceCoverage.Statistics

theorem sum_countClass (branches : List UncoveredRange)
    (h : ∀ r ∈ branches, ∃ verdict, r.kind = .branch verdict ∧ verdict ≠ .executedBoth) :
    countClass .alwaysTaken branches + countClass .neverTaken branches +
      countClass .notExecuted branches = branches.length := by
  induction branches with
  | nil => rfl
  | cons r rest ih =>
    obtain ⟨⟨verdict, hkind, hverdict⟩, hrest⟩ := List.forall_mem_cons.1 h
    have hsum := ih hrest
    simp only [countClass, List.countP_cons, hkind, List.length_cons] at hsum ⊢
    cases verdict <;> simp at hverdict ⊢ <;> omega

end TraceCoverage.Statistics

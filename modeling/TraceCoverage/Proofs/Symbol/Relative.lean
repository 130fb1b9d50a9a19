import TraceCoverage.Proofs.Symbol.Unified

/-!
# What does not depend on where a symbol lies

The shape of a symbol is what its lines say relative to its base. Ranges, branches and counts,
taken relative to the base, are functions of the unified map and of the shape.
-/

namespace TraceCoverage

/-! ## Shapes -/

/-- What an instruction line says, relative to the base of its symbol. -/
structure LineShape where
  offset : Address
  nop : Bool
  branch : Bool
  /-- Where the branch goes, if it stays in the symbol. -/
  target : Option Address
deriving DecidableEq

namespace ResolvedSymbol

def inside (s : ResolvedSymbol) (a : Address) : Bool := s.base ≤ a && a ≤ s.last

def lineShape? (s : ResolvedSymbol) (l : CodeLine) : Option LineShape :=
  l.address.map fun a =>
    { offset := a - s.base
      nop := l.isNop
      branch := l.isBranch
      target := (l.target?.filter s.inside).map (· - s.base) }

def shape (s : ResolvedSymbol) : List LineShape := s.lines.filterMap s.lineShape?

theorem isBranch_flagsAt_iff (s : ResolvedSymbol) (o : Address) :
    (CodeLine.flagsAt s.lines (s.base + o)).isBranch = true ↔
      ∃ x ∈ s.shape, x.offset = o ∧ x.branch = true := by
  rw [CodeLine.isBranch_flagsAt]
  constructor
  · rintro ⟨l, hl, ha, hb⟩
    refine ⟨_, List.mem_filterMap.2 ⟨l, hl, by rw [lineShape?, ha, Option.map_some]⟩, ?_, hb⟩
    exact Address.add_sub_base s.base o
  · rintro ⟨x, hx, ho, hb⟩
    obtain ⟨l, hl, hshape⟩ := List.mem_filterMap.1 hx
    obtain ⟨a, ha, rfl⟩ := Option.map_eq_some_iff.1 hshape
    refine ⟨l, hl, ?_, hb⟩
    rw [ha, ← ho, Address.base_add_sub]

/-- No target behind the end of the symbol is shown for a branch of which a line before showed a
target inside. -/
def Unshadowed (s : ResolvedSymbol) : Prop :=
  s.lines.Pairwise fun l l' => l.address = l'.address →
    l.target?.any s.inside = true → l'.target?.any (s.last < ·) = false

instance (s : ResolvedSymbol) : Decidable s.Unshadowed :=
  inferInstanceAs (Decidable (List.Pairwise _ _))

end ResolvedSymbol

def LineShape.targetAt? : List LineShape → Address → Option Address
  | [], _ => none
  | x :: rest, o => (targetAt? rest o).or (if x.offset = o then x.target else none)

namespace ResolvedSymbol

open CoverageMap

variable {s : ResolvedSymbol} {n : Nat}

/-- The symbol takes `n` bytes that do not run past the last address. -/
structure Takes (s : ResolvedSymbol) (n : Nat) : Prop where
  pos : 0 < n
  last : s.last.toNat = s.base.toNat + (n - 1)
  fits : s.base.toNat + n ≤ 0x100000000

theorem Takes.inside_iff (h : s.Takes n) {a : Address} :
    s.inside a = true ↔ s.base ≤ a ∧ (a - s.base).toNat < n := by
  have := h.pos
  simp only [inside, Bool.and_eq_true, decide_eq_true_eq, UInt32.le_iff_toNat_le, h.last]
  constructor
  · rintro ⟨hlow, hhigh⟩
    rw [UInt32.toNat_sub_of_le _ _ (UInt32.le_iff_toNat_le.2 hlow)]
    omega
  · rintro ⟨hlow, hlt⟩
    rw [UInt32.toNat_sub_of_le _ _ (UInt32.le_iff_toNat_le.2 hlow)] at hlt
    omega

theorem lineTarget_filter (h : s.Takes n) {o : Address} (ho : o.toNat < n) (l : CodeLine) :
    (if l.address.bind (fromBase? s.base) = some o then l.target?.bind (fromBase? s.base)
      else none).filter (·.toNat < n) =
      (s.lineShape? l).bind fun x => if x.offset = o then x.target else none := by
  have hfits := h.fits
  cases ha : l.address with
  | none => simp [lineShape?, ha]
  | some a =>
    have hoffset : fromBase? s.base a = some o ↔ a - s.base = o := by
      rw [fromBase?_eq_iff (by omega)]
      constructor
      · rintro rfl
        exact Address.add_sub_base s.base o
      · rintro rfl
        exact (Address.base_add_sub s.base a).symm
    simp only [lineShape?, ha, Option.bind_some, Option.map_some, hoffset]
    split
    next =>
      cases l.target? with
      | none => rfl
      | some target =>
        -- A target in front of the base has no offset, and the filter drops one that is past the
        -- end.
        by_cases hin : s.inside target
        · obtain ⟨hle, hlt⟩ := h.inside_iff.1 hin
          have hbase : fromBase? s.base target = some (target - s.base) := if_pos hle
          simp [hbase, Option.filter_some, hlt, hin]
        · have hout : ¬ (s.base ≤ target ∧ (target - s.base).toNat < n) := fun hc =>
            hin (h.inside_iff.2 hc)
          by_cases hle : s.base ≤ target
          · have hge : ¬ (target - s.base).toNat < n := fun hlt => hout ⟨hle, hlt⟩
            have hbase : fromBase? s.base target = some (target - s.base) := if_pos hle
            simp [hbase, Option.filter_some, hin, hge]
          · simp [fromBase?, Option.filter_some, hle, hin]
    next => rfl

theorem lineTarget_of_shadowed (h : s.Takes n) {o target : Address} (ho : o.toNat < n)
    (hout : ¬ target.toNat < n) {l l' : CodeLine}
    (hl : l.address = l'.address → l.target?.any s.inside = true →
      l'.target?.any (s.last < ·) = false)
    (ha' : l'.address.bind (fromBase? s.base) = some o)
    (ht' : l'.target?.bind (fromBase? s.base) = some target) :
    ((s.lineShape? l).bind fun x => if x.offset = o then x.target else none) = none := by
  have hfits := h.fits
  rw [bind_fromBase?_eq_some_iff _ (by omega)] at ha'
  obtain ⟨end', ht', hend'⟩ := Option.bind_eq_some_iff.1 ht'
  have hpast : s.last < end' := by
    simp only [fromBase?, Option.ite_none_right_eq_some, Option.some.injEq] at hend'
    obtain ⟨hle, rfl⟩ := hend'
    rw [UInt32.toNat_sub_of_le _ _ hle] at hout
    rw [UInt32.lt_iff_toNat_lt, h.last]
    have := h.pos
    omega
  cases ha : l.address with
  | none => simp [lineShape?, ha]
  | some a =>
    by_cases hoffset : a - s.base = o
    · have heq : l.address = l'.address := by
        rw [ha, ha', ← hoffset, Address.base_add_sub]
      have hno : l.target?.any s.inside = false := by
        rw [Bool.eq_false_iff]
        intro hin
        have := hl heq hin
        simp [ht', hpast] at this
      cases ht : l.target? with
      | none => simp [lineShape?, ha, ht]
      | some t =>
        have hin : s.inside t = false := by simpa [ht] using hno
        simp [lineShape?, ha, ht, Option.filter_some, hin]
    · simp [lineShape?, ha, hoffset]

theorem exists_of_targetOffset? {base o target : Address} {lines : List CodeLine}
    (h : targetOffset? base lines o = some target) :
    ∃ l ∈ lines, l.address.bind (fromBase? base) = some o ∧
      l.target?.bind (fromBase? base) = some target := by
  induction lines with
  | nil => cases h
  | cons l rest ih =>
    rw [targetOffset?, Option.or_eq_some_iff] at h
    rcases h with h | ⟨_, h⟩
    · obtain ⟨l', hmem, hl'⟩ := ih h
      exact ⟨l', List.mem_cons_of_mem _ hmem, hl'⟩
    · split at h
      next ha => exact ⟨l, List.mem_cons_self, ha, h⟩
      next => cases h

theorem targetOffset?_filter (h : s.Takes n) (hs : s.Unshadowed) {o : Address} (ho : o.toNat < n) :
    (targetOffset? s.base s.lines o).filter (·.toNat < n) = LineShape.targetAt? s.shape o := by
  unfold shape
  unfold Unshadowed at hs
  generalize s.lines = lines at hs
  induction lines with
  | nil => rfl
  | cons l rest ih =>
    obtain ⟨hhead, hrest⟩ := List.pairwise_cons.1 hs
    have hcons : LineShape.targetAt? ((l :: rest).filterMap s.lineShape?) o =
        (LineShape.targetAt? (rest.filterMap s.lineShape?) o).or
          ((s.lineShape? l).bind fun x => if x.offset = o then x.target else none) := by
      rw [List.filterMap_cons]
      cases s.lineShape? l with
      | none => simp
      | some x => rfl
    rw [hcons, ← ih hrest, ← lineTarget_filter h ho l, targetOffset?]
    cases hlater : targetOffset? s.base rest o with
    | none => simp
    | some target =>
      by_cases hin : target.toNat < n
      · simp [Option.filter_some, hin]
      · obtain ⟨l', hmem, ha', ht'⟩ := exists_of_targetOffset? hlater
        rw [lineTarget_filter h ho l, lineTarget_of_shadowed h ho hin (hhead l' hmem) ha' ht']
        simp [Option.filter_some, hin]

end ResolvedSymbol

/-! ## Ranges and branches relative to the base -/

def UncoveredRange.relative (base : Address) (r : UncoveredRange) : UncoveredRange :=
  { r with start := r.start - base, last := r.last - base }

@[simp]
theorem UncoveredRange.sizeInBytes_relative (base : Address) (r : UncoveredRange) :
    (r.relative base).sizeInBytes = r.sizeInBytes := by
  have h : r.last - base - (r.start - base) = r.last - r.start := by
    rw [← UInt32.toBitVec_inj]
    simp only [UInt32.toBitVec_sub]
    bv_omega
  simp only [relative, sizeInBytes, h]

namespace CoverageMap

variable {m : CoverageMap} {a : Address} {targets targets' : TargetOffsets}

theorem uncoveredBranches_relative (k : String) (base : Address) :
    (m.uncoveredBranches k base targets).map (·.relative base) =
      m.uncoveredBranches k 0 targets := by
  rw [uncoveredBranches, uncoveredBranches, List.map_filterMap]
  congr 1
  funext a
  cases m.classify a targets[a]? with
  | executedBoth => rfl
  | alwaysTaken | neverTaken | notExecuted =>
    simp only [Option.map_some, UncoveredRange.relative, Address.add_sub_base, UInt32.zero_add]

theorem uncoveredRanges_relative (k : String) (base : Address) :
    (m.uncoveredRanges k base).map (·.relative base) = m.uncoveredRanges k 0 := by
  rw [uncoveredRanges, uncoveredRanges, List.map_map]
  congr 1
  funext run
  simp only [Function.comp_apply, UncoveredRange.relative, Address.add_sub_base, UInt32.zero_add]

theorem classify_filter (branch : Address) (target : Option Address) :
    m.classify branch (target.filter m.contains) = m.classify branch target := by
  have hfilter : (target.filter m.contains).filter m.contains = target.filter m.contains := by
    cases target with
    | none => rfl
    | some t =>
      rw [Option.filter_some]
      split
      next h => rw [Option.filter_some, if_pos h]
      next => rfl
  simp only [classify, pathsSeen, hfilter]

theorem uncoveredBranches_congr (k : String) (base : Address)
    (h : ∀ a ∈ m.starts, targets[a]?.filter m.contains = targets'[a]?.filter m.contains) :
    m.uncoveredBranches k base targets = m.uncoveredBranches k base targets' := by
  unfold uncoveredBranches
  apply List.filterMap_congr
  intro a ha
  rw [← classify_filter a targets[a]?, h a (List.mem_of_mem_filter ha), classify_filter]

end CoverageMap

/-! ## Counts -/

theorem Statistics.ofSymbol_relative (s : Symbol) (base : Address) :
    ofSymbol
      { s with
        ranges := s.ranges.map (·.relative base)
        branches := s.branches.map (·.relative base) } = ofSymbol s := by
  have hsize : (fun r : UncoveredRange => (r.relative base).sizeInBytes.toNat) =
      fun r => r.sizeInBytes.toNat := by
    funext r
    rw [UncoveredRange.sizeInBytes_relative]
  have hclass : ∀ verdict, countClass verdict (s.branches.map (·.relative base)) =
      countClass verdict s.branches := by
    intro verdict
    rw [countClass, List.countP_map]
    rfl
  unfold ofSymbol
  cases s.unified with
  | none => rfl
  | some m =>
    simp only [List.map_map, Function.comp_def, hsize, hclass, List.length_map]
    rfl

theorem Statistics.ofSymbol_congr {s s' : Symbol} (hunified : s.unified = s'.unified)
    (hranges : s.ranges.map (·.relative s.base) = s'.ranges.map (·.relative s'.base))
    (hbranches : s.branches.map (·.relative s.base) = s'.branches.map (·.relative s'.base)) :
    ofSymbol s = ofSymbol s' := by
  rw [← ofSymbol_relative s s.base, ← ofSymbol_relative s' s'.base, hranges, hbranches]
  unfold ofSymbol
  simp only [hunified]

end TraceCoverage

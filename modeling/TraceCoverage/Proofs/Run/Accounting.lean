import TraceCoverage.Proofs.Run.Growth
import TraceCoverage.Proofs.Symbol.Accounting

/-!
# Counts add up

What is counted of a symbol comes partly from its map after padding was folded, and partly from
lists that were made before. Together they still account for every branch, instruction and byte of
the map, and the totals account for every symbol.
-/

namespace TraceCoverage

open CoverageMap Pipeline

structure Symbol.Accounts (s : Symbol) (u : CoverageMap) : Prop where
  branches : s.stats.branchesAlwaysTaken + s.stats.branchesNeverTaken +
    s.stats.branchesNotExecuted + s.stats.branchesExecutedBoth = u.branchCount
  instructions : s.stats.uncoveredInstructions + u.executedStarts.length =
    s.stats.sizeInInstructions
  bytes : s.stats.uncoveredBytes + u.executedBytes + u.leadingBytes = s.stats.sizeInBytes
  startCount : s.stats.sizeInInstructions = u.startCount
  size : s.stats.sizeInBytes = u.size

namespace Statistics

def counts : List (Statistics → Nat) :=
  [sizeInBytes, sizeInInstructions, uncoveredBytes, uncoveredInstructions, uncoveredRanges,
    branchesAlwaysTaken, branchesNeverTaken, branchesExecutedBoth, branchesNotExecuted]

/-- No more is uncovered than there is, and bytes are uncovered if and only if ranges are. -/
structure Balanced (s : Statistics) : Prop where
  bytes : s.uncoveredBytes ≤ s.sizeInBytes
  instructions : s.uncoveredInstructions ≤ s.sizeInInstructions
  ranges : s.uncoveredBytes = 0 ↔ s.uncoveredRanges = 0

/-- The shares are shares of a whole, and everything was executed if and only if no range is
uncovered. Of nothing there is no share. -/
structure Proportionate (s : Statistics) : Prop where
  uncoveredBytes : s.percentUncoveredBytes ≤ 100
  uncoveredInstructions : s.percentUncoveredInstructions ≤ 100
  executedBytes : s.percentExecutedBytes ≤ 100
  executed : 0 < s.sizeInBytes → (s.percentExecutedBytes = 100 ↔ s.uncoveredRanges = 0)

/-! ## Shares -/

theorem percent_le_hundred {part total : Nat} (h : part ≤ total) : percent part total ≤ 100 :=
  Nat.div_le_of_le_mul (Nat.mul_le_mul_right 100 h)

theorem percent_eq_hundred_iff {part total : Nat} (hpos : 0 < total) (h : part ≤ total) :
    percent part total = 100 ↔ part = total := by
  constructor
  · intro hpercent
    have hwhole := Nat.div_mul_le_self (part * 100) total
    rw [← percent, hpercent] at hwhole
    omega
  · rintro rfl
    exact Nat.mul_div_cancel_left 100 hpos

theorem Balanced.proportionate {s : Statistics} (h : s.Balanced) : s.Proportionate where
  uncoveredBytes := percent_le_hundred h.bytes
  uncoveredInstructions := percent_le_hundred h.instructions
  executedBytes := percent_le_hundred (Nat.sub_le _ _)
  executed hpos := by
    have hbytes := h.bytes
    rw [← h.ranges, percentExecutedBytes, percent_eq_hundred_iff hpos (Nat.sub_le _ _)]
    omega

/-! ## Sums -/

theorem balanced_nothing : Balanced {} :=
  ⟨Nat.le_refl 0, Nat.le_refl 0, Iff.rfl⟩

theorem Balanced.add {a b : Statistics} (ha : a.Balanced) (hb : b.Balanced) : (a + b).Balanced where
  bytes := Nat.add_le_add ha.bytes hb.bytes
  instructions := Nat.add_le_add ha.instructions hb.instructions
  ranges := by
    change a.uncoveredBytes + b.uncoveredBytes = 0 ↔ a.uncoveredRanges + b.uncoveredRanges = 0
    rw [Nat.add_eq_zero_iff, Nat.add_eq_zero_iff, ha.ranges, hb.ranges]

theorem balanced_foldl_add {stats : List Statistics} (h : ∀ s ∈ stats, s.Balanced)
    {a : Statistics} (ha : a.Balanced) : (stats.foldl (· + ·) a).Balanced := by
  induction stats generalizing a with
  | nil => exact ha
  | cons s rest ih =>
    obtain ⟨hs, hrest⟩ := List.forall_mem_cons.1 h
    exact ih hrest (ha.add hs)

theorem apply_add {f : Statistics → Nat} (hf : f ∈ counts) (a b : Statistics) :
    f (a + b) = f a + f b := by
  have hall : ∀ f ∈ counts, f (a + b) = f a + f b := by
    simp only [counts, List.forall_mem_cons]
    exact ⟨rfl, rfl, rfl, rfl, rfl, rfl, rfl, rfl, rfl, List.forall_mem_nil _⟩
  exact hall f hf

theorem apply_foldl_add {f : Statistics → Nat} (hf : f ∈ counts) (stats : List Statistics)
    (a : Statistics) : f (stats.foldl (· + ·) a) = f a + (stats.map f).foldr (· + ·) 0 := by
  induction stats generalizing a with
  | nil => rfl
  | cons s rest ih =>
    rw [List.foldl_cons, ih, apply_add hf, List.map_cons, List.foldr_cons, Nat.add_assoc]

theorem apply_nothing {f : Statistics → Nat} (hf : f ∈ counts) : f {} = 0 := by
  have htwice : f {} = f {} + f {} := apply_add hf {} {}
  omega

end Statistics

/-! ## One symbol -/

theorem CoverageMap.branchCount_eq (m : CoverageMap) : m.branchCount = m.branchOffsets.length := by
  rw [branchCount, List.countP_eq_length_filter, starts_filter_isBranch, List.length_map]

namespace Pipeline.Analyzed

variable {s : Symbol} {m : CoverageMap} {targets : TargetOffsets} (h : Analyzed s m targets)
include h

/-- The branches that are not uncovered are those that went both ways. No branch is uncovered
twice, so the difference is exact. -/
theorem branchesExecutedBoth_add :
    s.stats.branchesExecutedBoth + s.branches.length = m.fillPadding.branchCount := by
  have hboth : s.stats.branchesExecutedBoth = m.fillPadding.branchCount - s.branches.length := by
    rw [h.stats, Statistics.ofSymbol, h.unified]
    rfl
  have hle : s.branches.length ≤ m.fillPadding.branchCount := by
    rw [(folds_fillPadding m).branchCount_eq, branchCount_eq, h.branches, length_uncoveredBranches]
    exact List.countP_le_length
  rw [hboth, Nat.sub_add_cancel hle]

theorem sum_branches : s.stats.branchesAlwaysTaken + s.stats.branchesNeverTaken +
    s.stats.branchesNotExecuted = s.branches.length := by
  rw [← Statistics.sum_countClass s.branches fun r hr =>
    kind_of_mem_uncoveredBranches (h.branches ▸ hr), h.stats, Statistics.ofSymbol, h.unified]

theorem accounts (hsize : m.size < 0x100000000) : s.Accounts m.fillPadding where
  branches := by rw [h.sum_branches, Nat.add_comm, h.branchesExecutedBoth_add]
  instructions := by
    rw [h.uncoveredInstructions_eq, countP_starts_add, h.stats, Statistics.ofSymbol, h.unified]
  bytes := by
    rw [h.uncoveredBytes_eq hsize, h.sizeInBytes_eq, ← size_fillPadding m, countP_misses_add]
  startCount := by rw [h.stats, Statistics.ofSymbol, h.unified]
  size := by rw [h.sizeInBytes_eq, size_fillPadding]

theorem uncoveredRanges_eq : s.stats.uncoveredRanges = s.ranges.length := by
  rw [h.stats, Statistics.ofSymbol, h.unified]

theorem uncoveredBytes_eq_zero_iff (hsize : m.size < 0x100000000) :
    s.stats.uncoveredBytes = 0 ↔ s.ranges = [] := by
  have hbytes : s.stats.uncoveredBytes = (s.ranges.map (·.sizeInBytes.toNat)).foldr (· + ·) 0 := by
    rw [h.stats, Statistics.ofSymbol, h.unified]
  rw [hbytes]
  cases hranges : s.ranges with
  | nil => simp
  | cons range rest =>
    have hmem : range ∈ m.fillPadding.uncoveredRanges s.name s.base := by
      rw [← h.ranges, hranges]
      exact List.mem_cons_self
    have hpos := sizeInBytes_pos_of_mem (by simpa using hsize) hmem
    simp only [List.map_cons, List.foldr_cons, reduceCtorEq, iff_false]
    omega

theorem balanced (hsize : m.size < 0x100000000) : s.stats.Balanced where
  bytes := by
    have hbytes := (h.accounts hsize).bytes
    omega
  instructions := by
    have hinstructions := (h.accounts hsize).instructions
    omega
  ranges := by
    rw [h.uncoveredBytes_eq_zero_iff hsize, h.uncoveredRanges_eq, List.length_eq_zero_iff]

end Pipeline.Analyzed

/-! ## All symbols -/

namespace Registry

variable {r : Registry} {k : String} {s : Symbol} {u : CoverageMap}

theorem analyzed_or_blank (hs : s.Sized) :
    (∃ m targets, Analyzed (concluded s) m targets ∧ m.size < 0x100000000) ∨
      (concluded s).unified = none ∧ (concluded s).stats = {} := by
  cases hu : s.unified with
  | some u =>
    have hmarked : s.marked? = some (u.markLines s.base s.lines) := by
      rw [Symbol.marked?, hu, Option.map_some]
    have hsize : (u.markLines s.base s.lines).1.size = u.size :=
      (low_size_markLines s.base s.lines (u, ∅)).2
    exact .inl ⟨_, _, Symbol.analyzed_concluded hmarked, hsize ▸ hs u hu⟩
  | none =>
    refine .inr ?_
    rw [concluded, Symbol.analyze_of_none hu, Statistics.ofSymbol, hu]
    exact ⟨rfl, rfl⟩

theorem balanced_concluded (hs : s.Sized) : (concluded s).stats.Balanced := by
  rcases analyzed_or_blank hs with ⟨m, targets, h, hsize⟩ | ⟨_, hstats⟩
  · exact h.balanced hsize
  · rw [hstats]
    exact Statistics.balanced_nothing

theorem accounts_concluded (hs : s.Sized) (hu : (concluded s).unified = some u) :
    (concluded s).Accounts u ∧ (concluded s).stats.Proportionate ∧
      ((concluded s).stats.percentExecutedBytes = 100 ↔ (concluded s).ranges = []) := by
  rcases analyzed_or_blank hs with ⟨m, targets, h, hsize⟩ | ⟨hnone, _⟩
  · obtain rfl := Option.some.inj (hu.symm.trans h.unified)
    have hshares := (h.balanced hsize).proportionate
    have hpos : 0 < (concluded s).stats.sizeInBytes := h.sizeInBytes_eq ▸ m.size_pos
    refine ⟨h.accounts hsize, hshares, ?_⟩
    rw [hshares.executed hpos, h.uncoveredRanges_eq, List.length_eq_zero_iff]
  · cases hnone.symm.trans hu

theorem find?_concluded (hs : s ∈ r.analyze.count.state.find? k) :
    ∃ s₀ ∈ r.find? k, s = concluded s₀ := by
  have hstate : r.analyze.count.state = conclusion r := rfl
  rw [hstate, find?, getElem?_conclusion, Option.mem_def, Option.map_eq_some_iff] at hs
  obtain ⟨s₀, hs₀, rfl⟩ := hs
  exact ⟨s₀, hs₀, rfl⟩

theorem exists_find?_of_mem_toList (hs : s ∈ r.toList) : ∃ k, s ∈ r.find? k := by
  rw [toList, TreeMap.values_eq, List.mem_map] at hs
  obtain ⟨⟨k, s⟩, hmem, rfl⟩ := hs
  exact ⟨k, Std.ExtTreeMap.mem_toList_iff_getElem?_eq_some.1 hmem⟩

/-- After an analysis the counts can be had, and they are exact if the sizes of maps have 32 bits.
Of each symbol with a unified map, every branch, every instruction and every byte is accounted for,
and all of it was executed if and only if there is no uncovered range. The totals are the sums over
all symbols and keep these proportions. -/
theorem counts_account (h : ∀ k, ∀ s ∈ r.find? k, s.Sized) :
    ∃ totals, r.analyze.count.result = .ok totals ∧
      (∀ k, ∀ s ∈ r.analyze.count.state.find? k, ∀ u ∈ s.unified,
        s.Accounts u ∧ s.stats.Proportionate ∧
          (s.stats.percentExecutedBytes = 100 ↔ s.ranges = [])) ∧
      (∀ f ∈ Statistics.counts, f totals.stats =
        (r.analyze.count.state.toList.map fun s => f s.stats).foldr (· + ·) 0) ∧
      totals.stats.Proportionate := by
  refine ⟨r.analyze.count.state.totals, rfl, fun k s hs u hu => ?_, fun f hf => ?_, ?_⟩
  · obtain ⟨s₀, hs₀, rfl⟩ := find?_concluded hs
    exact accounts_concluded (h k s₀ hs₀) hu
  · rw [totals, Totals.ofSymbols, Statistics.apply_foldl_add hf, Statistics.apply_nothing hf,
      Nat.zero_add, List.map_map]
    rfl
  · refine (Statistics.balanced_foldl_add (fun stats hstats => ?_)
      Statistics.balanced_nothing).proportionate
    obtain ⟨s, hs, rfl⟩ := List.mem_map.1 hstats
    obtain ⟨k, hk⟩ := exists_find?_of_mem_toList hs
    obtain ⟨s₀, hs₀, rfl⟩ := find?_concluded hk
    exact balanced_concluded (h k s₀ hs₀)

theorem counts_account_padded :
    ∃ totals, (perform {} (padded ++ [.merge "f" entered])).analyze.count.result = .ok totals ∧
      totals.stats.Proportionate ∧ totals.stats.percentExecutedBytes = 33 := by
  have hblank : ∀ k, ∀ s ∈ find? {} k, s.Sized := by simp [find?]
  obtain ⟨totals, hcount, _, _, hshares⟩ :=
    counts_account (sized_perform hblank (padded ++ [.merge "f" entered]))
  have hcounted : (perform {} (padded ++ [.merge "f" entered])).analyze.count.result.toOption.any
      (fun totals => totals.stats.percentExecutedBytes = 33) = true := by
    decide +kernel
  rw [hcount] at hcounted
  exact ⟨totals, hcount, hshares, of_decide_eq_true hcounted⟩

end Registry

end TraceCoverage

import TraceCoverage.Proofs.Coverage.Starts
import TraceCoverage.Proofs.Symbol.Folding
import TraceCoverage.Proofs.Symbol.Runs

/-!
# Maps of which nothing ran, or everything

The analysis goes along the instruction starts. Where none of them ran, they make one run; where all
of them ran, there is no run, and a branch is told by what lies behind it.
-/

namespace TraceCoverage.CoverageMap

variable {m : CoverageMap} {l : List Address} {a : Address} {i : Nat}

def AllRan (m : CoverageMap) (ran : Bool) : Prop :=
  ∀ a ∈ m.starts, (m.flagsAt a).isExecuted = ran

instance (m : CoverageMap) (ran : Bool) : Decidable (m.AllRan ran) :=
  decidable_of_iff (m.starts.all fun a => (m.flagsAt a).isExecuted == ran) (by simp [AllRan])

/-! ## Padding and runs -/

theorem foldl_fillStep_of_allRan {ran before : Bool}
    (h : ∀ a ∈ l, (m.flagsAt a).isExecuted = ran) (hbefore : before = true → ran = true) :
    (l.foldl fillStep (m, before)).1 = m := by
  induction l generalizing before with
  | nil => rfl
  | cons a rest ih =>
    obtain ⟨ha, hrest⟩ := List.forall_mem_cons.1 h
    have hstep : fillStep (m, before) a = (m, ran) := by
      unfold fillStep
      cases ran <;> simp_all
    rw [List.foldl_cons, hstep]
    exact ih hrest id

/-- Padding is folded only between code that ran and code that did not. -/
theorem fillPadding_of_allRan {ran : Bool} (h : m.AllRan ran) : m.fillPadding = m :=
  foldl_fillStep_of_allRan h (by simp)

theorem runs_of_executed (h : ∀ a ∈ l, (m.flagsAt a).isExecuted = true) : m.runs none l = [] := by
  induction l with
  | nil => rfl
  | cons a rest ih =>
    obtain ⟨ha, hrest⟩ := List.forall_mem_cons.1 h
    rw [runs_cons, if_pos ha]
    exact ih hrest

theorem runs_of_missed (h : ∀ a ∈ l, (m.flagsAt a).isExecuted = false) (first : Address) (n : Nat) :
    m.runs (some (first, n)) l = [(first, m.high, n + l.length)] := by
  induction l generalizing n with
  | nil => rfl
  | cons a rest ih =>
    obtain ⟨ha, hrest⟩ := List.forall_mem_cons.1 h
    rw [runs_cons, if_neg (by simp [ha]), extend, ih hrest, List.length_cons]
    congr 3
    omega

theorem uncoveredRanges_of_executed (h : m.AllRan true) (name : String) (base : Address) :
    m.uncoveredRanges name base = [] := by
  rw [uncoveredRanges, runs_of_executed h]
  rfl

theorem uncoveredRanges_of_missed (h : m.AllRan false) (name : String) (base : Address) :
    m.uncoveredRanges name base =
      (m.starts.head?.map fun first =>
        { symbol := name
          start := base + first
          last := base + m.high
          instructions := m.starts.length
          kind := .notExecuted : UncoveredRange }).toList := by
  unfold uncoveredRanges
  unfold AllRan at h
  cases hstarts : m.starts with
  | nil => rfl
  | cons first rest =>
    rw [hstarts] at h
    obtain ⟨hfirst, hrest⟩ := List.forall_mem_cons.1 h
    rw [runs_cons, if_neg (by simp [hfirst]), runs_of_missed hrest]
    simp [extend, Nat.add_comm]

/-! ## The first instruction -/

theorem head?_starts_eq_low_iff : m.starts.head? = some m.low ↔ m.isStartAt 0 = true := by
  have hpos := m.size_pos
  constructor
  · intro hhead
    obtain ⟨i, hi, hstart, hat⟩ := mem_starts.1 (List.mem_of_mem_head? hhead)
    have hnat := toNat_address hi
    rw [hat] at hnat
    obtain rfl : i = 0 := by omega
    exact hstart
  · intro hstart
    obtain ⟨n, hn⟩ := Nat.exists_eq_succ_of_ne_zero (Nat.ne_of_gt hpos)
    have hlow : m.address 0 = m.low := by simp [address]
    change ((List.range m.size).filter m.isStartAt |>.map m.address).head? = _
    rw [hn, List.range_succ_eq_map, List.filter_cons_of_pos hstart, List.map_cons, List.head?_cons,
      hlow]

/-! ## Branches -/

/-- What lies behind both ways of a branch ran: an instruction behind it, and its target, unless
that lies outside the map or is not known. -/
def Followed (m : CoverageMap) (branch : Address) (target : Option Address) : Prop :=
  (∃ next ∈ m.starts, branch < next) ∧
    ∀ t ∈ target, m.contains t = true → (m.flagsAt t).isExecuted = true

instance (m : CoverageMap) (branch : Address) (target : Option Address) :
    Decidable (m.Followed branch target) :=
  decidable_of_iff
    (m.starts.any (branch < ·) ∧ target.all fun t => !m.contains t || (m.flagsAt t).isExecuted)
    (by cases target <;> simp [Followed, Classical.or_iff_not_imp_left])

theorem exists_nextStart?_iff :
    (∃ next, m.nextStart? a = some next) ↔ ∃ next ∈ m.starts, a < next := by
  rw [← Option.isSome_iff_exists, Option.isSome_iff_ne_none, Ne, nextStart?_eq_none_iff]
  simp only [not_forall, UInt32.not_le, exists_prop]

theorem classify_eq_executedBoth_iff (h : m.AllRan true) (ha : a ∈ m.starts)
    (hdirection : (m.flagsAt a).hasDirection = false) (target : Option Address) :
    m.classify a target = .executedBoth ↔ m.Followed a target := by
  rw [classify_eq_executedBoth_iff_of_not_hasDirection hdirection, Followed,
    ← exists_nextStart?_iff]
  constructor
  · rintro ⟨_, htarget, next, hnext, _⟩
    exact ⟨⟨next, hnext⟩, htarget⟩
  · rintro ⟨⟨next, hnext⟩, htarget⟩
    exact ⟨h a ha, htarget, next, hnext, h next (nextStart?_eq_some_iff.1 hnext).1⟩

theorem uncoveredBranches_eq_nil_iff (name : String) (base : Address) (targets : TargetOffsets) :
    m.uncoveredBranches name base targets = [] ↔
      ∀ a ∈ m.starts, (m.flagsAt a).isBranch = true → m.classify a targets[a]? = .executedBoth := by
  rw [uncoveredBranches, List.filterMap_eq_nil_iff]
  simp only [List.mem_filter, and_imp]
  refine forall₃_congr fun a _ _ => ?_
  cases m.classify a targets[a]? <;> simp

end TraceCoverage.CoverageMap

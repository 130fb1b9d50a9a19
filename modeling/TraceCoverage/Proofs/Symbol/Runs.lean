import TraceCoverage.Proofs.Symbol.Relative

/-!
# Runs of missed instructions

The runs go along the instruction starts and look at no byte between them. Still each byte behind a
start that was not executed lies in one run, and no other byte lies in any.
-/

namespace TraceCoverage

namespace CoverageMap

variable {m : CoverageMap} {a : Address} {l : List Address} {current : Option (Address × Nat)}

def inRun (a : Address) (run : Address × Address × Nat) : Bool := run.1 ≤ a && a ≤ run.2.1

/-- The last of some starts at or before an address was not executed. Where none is, what came
before them counts. -/
def missedAt (m : CoverageMap) (a : Address) (before : Bool) : List Address → Bool
  | [] => before
  | b :: rest => if a < b then before else missedAt m a (!(m.flagsAt b).isExecuted) rest

theorem missedAt_of_lt (before : Bool) (h : ∀ b ∈ l, a < b) : m.missedAt a before l = before := by
  cases l with
  | nil => rfl
  | cons b rest => rw [missedAt, if_pos (h b List.mem_cons_self)]

theorem inRun_before {first b : Address} (h : first < b) (n : Nat) :
    inRun a (first, b - 1, n) = (decide (first ≤ a) && decide (a < b)) := by
  have hlt := UInt32.lt_iff_toNat_lt.1 h
  rw [inRun, Bool.eq_iff_iff]
  simp only [Bool.and_eq_true, decide_eq_true_eq, UInt32.le_iff_toNat_le, UInt32.lt_iff_toNat_lt,
    Address.toNat_sub_one_of_lt h]
  omega

def extend (current : Option (Address × Nat)) (b : Address) : Address × Nat :=
  match current with
  | some (first, n) => (first, n + 1)
  | none => (b, 1)

theorem runs_cons (current : Option (Address × Nat)) (b : Address) (rest : List Address) :
    m.runs current (b :: rest) =
      if (m.flagsAt b).isExecuted then
        (current.map fun (first, n) => (first, b - 1, n)).toList ++ m.runs none rest
      else m.runs (some (extend current b)) rest := by
  cases current <;> rfl

/-- An address lies in one run if the last start before it was not executed, and in none else. -/
theorem countP_runs (hsorted : l.Pairwise (· < ·)) (ha : a ≤ m.high)
    (hcurrent : ∀ run ∈ current, ∀ b ∈ l, run.1 < b) :
    (m.runs current l).countP (inRun a) =
      if m.missedAt a (current.any (·.1 ≤ a)) l then 1 else 0 := by
  induction l generalizing current with
  | nil =>
    cases current with
    | none => rfl
    | some run => simp [runs, missedAt, inRun, ha]
  | cons b rest ih =>
    obtain ⟨hb, hrest⟩ := List.pairwise_cons.1 hsorted
    have hbehind : ∀ before, a < b → m.missedAt a before rest = before := fun before hlt =>
      missedAt_of_lt before fun c hc => UInt32.lt_trans hlt (hb c hc)
    rw [runs_cons, missedAt]
    by_cases hran : (m.flagsAt b).isExecuted = true
    · rw [if_pos hran, List.countP_append, ih hrest (by simp), hran]
      by_cases hlt : a < b
      · rw [hbehind _ hlt, if_pos hlt]
        cases current with
        | none => rfl
        | some run => simp [inRun_before (hcurrent run rfl b List.mem_cons_self), hlt]
      · rw [if_neg hlt]
        cases current with
        | none => simp
        | some run => simp [inRun_before (hcurrent run rfl b List.mem_cons_self), hlt]
    · have hfirst : ∀ c ∈ rest, (extend current b).1 < c := by
        intro c hc
        cases current with
        | none => exact hb c hc
        | some run => exact hcurrent run rfl c (List.mem_cons_of_mem _ hc)
      rw [if_neg hran, ih hrest (by simpa using hfirst), Option.any_some]
      by_cases hlt : a < b
      · have hopen : decide ((extend current b).1 ≤ a) = current.any (·.1 ≤ a) := by
          cases current with
          | none => exact decide_eq_false (UInt32.not_le.2 hlt)
          | some run => rfl
        rw [hbehind _ hlt, if_pos hlt, hopen]
      · have hopen : decide ((extend current b).1 ≤ a) = !(m.flagsAt b).isExecuted := by
          have hle := UInt32.not_lt.1 hlt
          rw [Bool.eq_false_iff.2 hran, Bool.not_false]
          cases current with
          | none => exact decide_eq_true hle
          | some run =>
            have hbefore := hcurrent run rfl b List.mem_cons_self
            exact decide_eq_true (UInt32.le_trans (UInt32.le_of_lt hbefore) hle)
        rw [if_neg hlt, hopen]

/-! ## Runs of a map -/

theorem missedAt_eq (hsorted : l.Pairwise (· < ·)) {b : Address} (hb : b ∈ l) (hle : b ≤ a)
    (hlast : ∀ c ∈ l, c ≤ a → c ≤ b) (before : Bool) :
    m.missedAt a before l = !(m.flagsAt b).isExecuted := by
  induction l generalizing before with
  | nil => cases hb
  | cons c rest ih =>
    obtain ⟨hc, hrest⟩ := List.pairwise_cons.1 hsorted
    rw [List.forall_mem_cons] at hlast
    rcases List.mem_cons.1 hb with rfl | hmem
    · rw [missedAt, if_neg (UInt32.not_lt.2 hle)]
      refine missedAt_of_lt _ fun d hd => UInt32.not_le.1 fun hda => ?_
      exact absurd (hc d hd) (UInt32.not_lt.2 (hlast.2 d hd hda))
    · have hca := UInt32.le_trans (UInt32.le_of_lt (hc b hmem)) hle
      rw [missedAt, if_neg (UInt32.not_lt.2 hca)]
      exact ih hrest hmem hlast.2 _

section

variable {i j : Nat}

/-- The byte is spanned by an instruction that was not executed. -/
def misses (m : CoverageMap) (i : Nat) : Bool := m.missedAt (m.address i) false m.starts

theorem countP_runs_starts (hi : i < m.size) :
    (m.runs none m.starts).countP (inRun (m.address i)) = if m.misses i then 1 else 0 := by
  have hhigh : m.address i ≤ m.high := by
    rw [UInt32.le_iff_toNat_le, toNat_address hi, toNat_high]
    omega
  exact countP_runs m.starts_pairwise hhigh (by simp)

theorem misses_of_spans (hstart : m.isStartAt j = true) (hspans : m.Spans j i) :
    m.misses i = !(m.byte j).isExecuted := by
  obtain ⟨hji, hi, hno⟩ := hspans
  have hj : j < m.size := by omega
  rw [← flagsAt_address hj]
  refine missedAt_eq m.starts_pairwise (mem_starts.2 ⟨j, hj, hstart, rfl⟩) ?_ ?_ _
  · exact UInt32.not_lt.1 fun hlt => absurd ((address_lt_iff hi hj).1 hlt) (by omega)
  · intro c hc hle
    obtain ⟨k, hk, hkstart, rfl⟩ := mem_starts.1 hc
    by_contra hlt
    have hjk := (address_lt_iff hj hk).1 (UInt32.not_le.1 hlt)
    have hki : k ≤ i := by
      rw [UInt32.le_iff_toNat_le, toNat_address hk, toNat_address hi] at hle
      omega
    exact absurd hkstart (by rw [hno k hjk hki]; simp)

theorem misses_of_no_start (hi : i < m.size) (hno : ∀ j ≤ i, m.isStartAt j = false) :
    m.misses i = false := by
  refine missedAt_of_lt _ fun c hc => ?_
  obtain ⟨k, hk, hkstart, rfl⟩ := mem_starts.1 hc
  refine (address_lt_iff hi hk).2 ?_
  by_contra hle
  exact absurd hkstart (by rw [hno k (by omega)]; simp)

end

/-! ## Bytes in runs -/

theorem bounds_of_mem_runs (hsorted : l.Pairwise (· < ·)) (hin : ∀ b ∈ l, m.contains b = true)
    (hcurrent : ∀ run ∈ current, m.contains run.1 = true ∧ ∀ b ∈ l, run.1 < b) :
    ∀ run ∈ m.runs current l,
      m.contains run.1 = true ∧ m.contains run.2.1 = true ∧ run.1 ≤ run.2.1 := by
  induction l generalizing current with
  | nil =>
    intro run hrun
    obtain ⟨⟨first, n⟩, hopen, rfl⟩ := Option.map_eq_some_iff.1 (Option.mem_toList.1 hrun)
    obtain ⟨hfirst, _⟩ := hcurrent _ hopen
    have hpos := m.size_pos
    obtain ⟨hlow, hhigh⟩ : m.low.toNat ≤ first.toNat ∧ first.toNat < m.low.toNat + m.size :=
      contains_iff.1 hfirst
    have hend := m.toNat_high
    have hhighin : m.contains m.high = true := contains_iff.2 (by omega)
    have hle : first ≤ m.high := UInt32.le_iff_toNat_le.2 (by omega)
    exact ⟨hfirst, hhighin, hle⟩
  | cons b rest ih =>
    obtain ⟨hb, hrest⟩ := List.pairwise_cons.1 hsorted
    obtain ⟨hbin, hrestin⟩ := List.forall_mem_cons.1 hin
    rw [runs_cons]
    split
    next =>
      rw [List.forall_mem_append]
      refine ⟨fun run hrun => ?_, ih hrest hrestin (by simp)⟩
      obtain ⟨⟨first, n⟩, hopen, rfl⟩ := Option.map_eq_some_iff.1 (Option.mem_toList.1 hrun)
      obtain ⟨hfirst, hbefore⟩ := hcurrent _ hopen
      have hlt := hbefore b List.mem_cons_self
      have hnat : first.toNat < b.toNat := UInt32.lt_iff_toNat_lt.1 hlt
      have hend : (b - 1).toNat = b.toNat - 1 := Address.toNat_sub_one_of_lt hlt
      obtain ⟨hlow, _⟩ : m.low.toNat ≤ first.toNat ∧ _ := contains_iff.1 hfirst
      obtain ⟨_, hhigh⟩ := contains_iff.1 hbin
      have hlastin : m.contains (b - 1) = true := contains_iff.2 (by omega)
      have hle : first ≤ b - 1 := UInt32.le_iff_toNat_le.2 (by omega)
      exact ⟨hfirst, hlastin, hle⟩
    next =>
      refine ih hrest hrestin fun run hrun => ?_
      obtain rfl := Option.some.inj hrun
      cases current with
      | none => exact ⟨hbin, hb⟩
      | some open' =>
        obtain ⟨hfirst, hbefore⟩ := hcurrent open' rfl
        exact ⟨hfirst, fun c hc => hbefore c (List.mem_cons_of_mem _ hc)⟩

theorem bounds_of_mem_runs_starts {run : Address × Address × Nat}
    (hrun : run ∈ m.runs none m.starts) :
    m.contains run.1 = true ∧ m.contains run.2.1 = true ∧ run.1 ≤ run.2.1 := by
  exact bounds_of_mem_runs m.starts_pairwise (fun b hb => contains_of_mem_starts hb) (by simp) run
    hrun

theorem foldr_add_map_add {β : Type} (f g : β → Nat) (l : List β) :
    (l.map fun b => f b + g b).foldr (· + ·) 0 =
      (l.map f).foldr (· + ·) 0 + (l.map g).foldr (· + ·) 0 := by
  induction l with
  | nil => rfl
  | cons b rest ih =>
    simp only [List.map_cons, List.foldr_cons, ih]
    omega

theorem countP_eq_foldr_add {β : Type} (q : β → Bool) (l : List β) :
    l.countP q = (l.map fun b => if q b then 1 else 0).foldr (· + ·) 0 := by
  induction l with
  | nil => rfl
  | cons b rest ih => rw [List.countP_cons, ih, List.map_cons, List.foldr_cons, Nat.add_comm]

theorem foldr_add_countP_comm {α β : Type} (p : α → β → Bool) (l : List α) (l' : List β) :
    (l.map fun a => l'.countP (p a)).foldr (· + ·) 0 =
      (l'.map fun b => l.countP (p · b)).foldr (· + ·) 0 := by
  induction l with
  | nil =>
    induction l' with
    | nil => rfl
    | cons b rest ih => simpa using ih
  | cons a rest ih =>
    simp only [List.map_cons, List.foldr_cons, ih, List.countP_cons, foldr_add_map_add,
      countP_eq_foldr_add (p a), Nat.add_comm]

theorem countP_range_interval {first last n : Nat} (hlast : last < n) :
    (List.range n).countP (fun i => decide (first ≤ i) && decide (i ≤ last)) = last + 1 - first := by
  have h : ∀ n, (List.range n).countP (fun i => decide (first ≤ i) && decide (i ≤ last)) =
      min n (last + 1) - first := by
    intro n
    induction n with
    | zero => simp
    | succ n ih =>
      rw [List.range_succ, List.countP_append, ih, List.countP_singleton]
      by_cases hin : first ≤ n ∧ n ≤ last
      · rw [if_pos (by simpa using hin)]
        omega
      · rw [if_neg (by simpa using hin)]
        omega
  rw [h]
  omega

theorem sum_size_runs :
    ((m.runs none m.starts).map fun run => run.2.1.toNat - run.1.toNat + 1).foldr (· + ·) 0 =
      (List.range m.size).countP m.misses := by
  have hsize : ∀ run ∈ m.runs none m.starts, run.2.1.toNat - run.1.toNat + 1 =
      (List.range m.size).countP fun i => inRun (m.address i) run := by
    intro run hrun
    obtain ⟨hfirst, hlast, hle⟩ := bounds_of_mem_runs_starts hrun
    rw [UInt32.le_iff_toNat_le] at hle
    rw [contains_iff] at hfirst hlast
    have hinterval : ∀ i ∈ List.range m.size, inRun (m.address i) run =
        (decide (run.1.toNat - m.low.toNat ≤ i) && decide (i ≤ run.2.1.toNat - m.low.toNat)) := by
      intro i hi
      rw [inRun, Bool.eq_iff_iff]
      simp only [Bool.and_eq_true, decide_eq_true_eq, UInt32.le_iff_toNat_le,
        toNat_address (List.mem_range.1 hi)]
      omega
    rw [List.countP_congr fun i hi => by rw [hinterval i hi], countP_range_interval (by omega)]
    omega
  have hcount : ∀ i ∈ List.range m.size,
      (m.runs none m.starts).countP (inRun (m.address i)) = if m.misses i then 1 else 0 :=
    fun i hi => countP_runs_starts (List.mem_range.1 hi)
  rw [List.map_congr_left hsize, foldr_add_countP_comm, List.map_congr_left hcount,
    countP_eq_foldr_add]

end CoverageMap

/-! ## Ranges -/

def UncoveredRange.covers (r : UncoveredRange) (a : Address) : Bool := r.start ≤ a && a ≤ r.last

namespace CoverageMap

variable {m : CoverageMap} {base : Address}

theorem toNat_base_add {a : Address} (hfits : base.toNat + m.high.toNat < 0x100000000)
    (ha : m.contains a = true) : (base + a).toNat = base.toNat + a.toNat := by
  rw [contains_iff] at ha
  rw [toNat_high] at hfits
  rw [UInt32.toNat_add, Nat.mod_eq_of_lt (by omega)]

theorem countP_covers (name : String) (hfits : base.toNat + m.high.toNat < 0x100000000) {i : Nat}
    (hi : i < m.size) :
    (m.uncoveredRanges name base).countP (·.covers (base + m.address i)) =
      if m.misses i then 1 else 0 := by
  rw [← countP_runs_starts hi, uncoveredRanges, List.countP_map]
  refine List.countP_congr fun run hrun => ?_
  obtain ⟨hfirst, hlast, _⟩ := bounds_of_mem_runs_starts hrun
  simp only [Function.comp_apply, UncoveredRange.covers, inRun, Bool.and_eq_true,
    decide_eq_true_eq, UInt32.le_iff_toNat_le, toNat_base_add hfits hfirst,
    toNat_base_add hfits hlast, toNat_base_add hfits (contains_address hi)]
  omega

theorem countP_uncoveredRanges (name : String) (hlow : m.low = 0)
    (hfits : base.toNat + m.size ≤ 0x100000000) {i : Nat} (hi : i < m.size) :
    (m.uncoveredRanges name base).countP (·.covers (base + UInt32.ofNat i)) =
      if m.misses i then 1 else 0 := by
  have hat : UInt32.ofNat i = m.address i := by
    rw [address, hlow, UInt32.zero_add]
  have hzero : (0 : Address).toNat = 0 := rfl
  rw [hat]
  refine countP_covers name ?_ hi
  rw [toNat_high, hlow, hzero]
  omega

theorem toNat_sizeInBytes (hsize : m.size < 0x100000000) {run : Address × Address × Nat}
    (hrun : run ∈ m.runs none m.starts) (base : Address) {r : UncoveredRange}
    (hstart : r.start = base + run.1) (hlast : r.last = base + run.2.1) :
    r.sizeInBytes.toNat = run.2.1.toNat - run.1.toNat + 1 := by
  obtain ⟨hfirstin, hlastin, hle⟩ := bounds_of_mem_runs_starts hrun
  rw [contains_iff] at hfirstin hlastin
  have hone : (1 : Address).toNat = 1 := rfl
  rw [← UncoveredRange.sizeInBytes_relative base]
  simp only [UncoveredRange.relative, hstart, hlast, Address.add_sub_base,
    UncoveredRange.sizeInBytes]
  rw [UInt32.toNat_add, UInt32.toNat_sub_of_le _ _ hle, hone, Nat.mod_eq_of_lt (by omega)]

theorem sum_size_uncoveredRanges (name : String) (base : Address) (hsize : m.size < 0x100000000) :
    ((m.uncoveredRanges name base).map (·.sizeInBytes.toNat)).foldr (· + ·) 0 =
      (List.range m.size).countP m.misses := by
  rw [← sum_size_runs, uncoveredRanges, List.map_map]
  congr 1
  exact List.map_congr_left fun run hrun => toNat_sizeInBytes hsize hrun base rfl rfl

theorem sizeInBytes_pos_of_mem {name : String} {r : UncoveredRange} (hsize : m.size < 0x100000000)
    (hr : r ∈ m.uncoveredRanges name base) : 0 < r.sizeInBytes.toNat := by
  obtain ⟨run, hrun, rfl⟩ := List.mem_map.1 hr
  rw [toNat_sizeInBytes hsize hrun base rfl rfl]
  exact Nat.succ_pos _

end CoverageMap

end TraceCoverage

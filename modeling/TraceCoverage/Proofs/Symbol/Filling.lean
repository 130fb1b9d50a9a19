import TraceCoverage.Proofs.Symbol.Carrying
import TraceCoverage.Proofs.Symbol.Extremes
import Mathlib.Data.List.Sort

/-!
# Which padding the fold fills

The fold goes forward along the starts and carries one bit with it. Seen from one start it is a walk
back: over padding that did not run, to the first instruction that is not such padding. If that one
ran, the start is filled, with all bytes up to the next instruction, and nothing else changes.
-/

namespace TraceCoverage.CoverageMap

variable {m m' : CoverageMap} {a b : Address} {i k n : Nat}

/-! ## The walk back -/

def idle (m : CoverageMap) (a : Address) : Bool :=
  (m.flagsAt a).isNop && !(m.flagsAt a).isExecuted

/-- The first start on the way back from an address that is not idle padding. -/
def codeBefore? (m : CoverageMap) (a : Address) : Option Address :=
  (m.starts.filter (· < a)).reverse.find? (!m.idle ·)

def fills (m : CoverageMap) (a : Address) : Bool :=
  m.idle a && (m.codeBefore? a).any fun b => (m.flagsAt b).isExecuted

theorem filter_starts_lt (hn : n < m.size) :
    m.starts.filter (· < m.address n) = ((List.range n).filter m.isStartAt).map m.address := by
  have hbelow : (((List.range n).filter m.isStartAt).map m.address).Pairwise (· < ·) := by
    rw [List.pairwise_map]
    refine (List.pairwise_lt_range.filter _).imp_of_mem fun {i j} hi hj hlt => ?_
    have hi' := List.mem_range.1 (List.mem_filter.1 hi).1
    have hj' := List.mem_range.1 (List.mem_filter.1 hj).1
    exact (address_lt_iff (by omega) (by omega)).2 hlt
  refine (m.starts_pairwise.filter _).eq_of_mem_iff hbelow fun a => ?_
  simp only [List.mem_filter, mem_starts, decide_eq_true_eq, List.mem_map, List.mem_range]
  constructor
  · rintro ⟨⟨i, hi, hstart, rfl⟩, hlt⟩
    exact ⟨i, ⟨(address_lt_iff hi hn).1 hlt, hstart⟩, rfl⟩
  · rintro ⟨i, ⟨hin, hstart⟩, rfl⟩
    exact ⟨⟨i, by omega, hstart, rfl⟩, (address_lt_iff (by omega) hn).2 hin⟩

/-- What the walk back finds, ran exactly if execution carries over to where the walk begins. -/
theorem any_find?_eq_carries (hn : n ≤ m.size) :
    ((((List.range n).filter m.isStartAt).map m.address).reverse.find? (!m.idle ·)).any
      (fun b => (m.flagsAt b).isExecuted) = m.carries n := by
  induction n with
  | zero => rfl
  | succ n ih =>
    rw [List.range_succ, List.filter_append]
    by_cases hstart : m.isStartAt n = true
    · rw [List.filter_cons_of_pos hstart, List.filter_nil, List.map_append, List.map_singleton,
        List.reverse_append, List.reverse_singleton, List.singleton_append, List.find?_cons,
        carries_succ hstart, ← ih (by omega), idle, flagsAt_address hn]
      cases hran : (m.byte n).isExecuted <;> cases hnop : (m.byte n).isNop <;>
        simp [flagsAt_address hn, hran]
    · rw [List.filter_cons_of_neg hstart, List.filter_nil, List.append_nil,
        carries_succ_of_not_start hstart, ih (by omega)]

theorem fills_address (hi : i < m.size) (hstart : m.isStartAt i = true) :
    m.fills (m.address i) = m.folds i := by
  rw [fills, idle, codeBefore?, filter_starts_lt hi, any_find?_eq_carries (Nat.le_of_lt hi), folds,
    hstart, flagsAt_address hi, Bool.true_and]

/-! ## The bytes of an instruction -/

theorem toNat_instructionEnd (hi : i < m.size) :
    (m.instructionEnd (m.address i)).toNat =
      m.low.toNat + ((m.startFrom? (i + 1)).getD m.size - 1) := by
  rw [instructionEnd, nextStart?_address hi]
  cases h : m.startFrom? (i + 1) with
  | none => exact m.toNat_high
  | some s =>
    obtain ⟨his, hs, _, _⟩ := startFrom?_eq_some_iff.1 h
    have hlt : m.address i < m.address s := (address_lt_iff hi hs).2 his
    simp only [Option.map_some, Option.getD_some]
    rw [Address.toNat_sub_one_of_lt hlt, toNat_address hs]
    omega

theorem lt_instructionEnd_iff (hi : i < m.size) (hk : k < m.size) :
    m.address i ≤ m.address k ∧ m.address k ≤ m.instructionEnd (m.address i) ↔ m.Spans i k := by
  rw [UInt32.le_iff_toNat_le, UInt32.le_iff_toNat_le, toNat_address hi, toNat_address hk,
    toNat_instructionEnd hi]
  have hpos : 0 < (m.startFrom? (i + 1)).getD m.size := by
    cases h : m.startFrom? (i + 1) with
    | none => exact m.size_pos
    | some s =>
      obtain ⟨his, _⟩ := startFrom?_eq_some_iff.1 h
      simp only [Option.getD_some]
      omega
  constructor
  · rintro ⟨hik, hend⟩
    exact (lt_stop_iff_spans (by omega)).1 (by omega)
  · intro hspans
    have hstop := (lt_stop_iff_spans hspans.1).2 hspans
    have hik := hspans.1
    omega

/-! ## The fold -/

def filled (m : CoverageMap) (b : Address) : Bool :=
  m.starts.any fun a => m.fills a && a ≤ b && b ≤ m.instructionEnd a

theorem filled_address_iff (hk : k < m.size) :
    m.filled (m.address k) = true ↔ ∃ i < m.size, m.folds i = true ∧ m.Spans i k := by
  simp only [filled, List.any_eq_true, mem_starts, Bool.and_eq_true, decide_eq_true_eq, and_assoc]
  constructor
  · rintro ⟨_, ⟨i, hi, hstart, rfl⟩, hfills, hspan⟩
    exact ⟨i, hi, fills_address hi hstart ▸ hfills, (lt_instructionEnd_iff hi hk).1 hspan⟩
  · rintro ⟨i, hi, hfolds, hspans⟩
    have hstart : m.isStartAt i = true := by simp_all [folds]
    exact ⟨_, ⟨i, hi, hstart, rfl⟩, fills_address hi hstart ▸ hfolds,
      (lt_instructionEnd_iff hi hk).2 hspans⟩

theorem filled_of_not_contains (hb : ¬ m.contains b = true) : m.filled b = false := by
  rw [filled, List.any_eq_false]
  intro a ha hfilled
  obtain ⟨i, hi, _, rfl⟩ := mem_starts.1 ha
  simp only [Bool.and_eq_true, decide_eq_true_eq, UInt32.le_iff_toNat_le, toNat_address hi,
    toNat_instructionEnd hi] at hfilled
  refine hb (contains_iff.2 ?_)
  have hstop : (m.startFrom? (i + 1)).getD m.size ≤ m.size := by
    cases h : m.startFrom? (i + 1) with
    | none => exact Nat.le_refl _
    | some s => exact Nat.le_of_lt (startFrom?_eq_some_iff.1 h).2.1
  have hpos := m.size_pos
  omega

theorem flagsAt_fillPadding (m : CoverageMap) (b : Address) :
    m.fillPadding.flagsAt b =
      if m.filled b then (m.flagsAt b).union Flags.executed else m.flagsAt b := by
  by_cases hb : m.contains b = true
  · obtain ⟨k, hk⟩ := exists_offset? hb
    obtain rfl := eq_address_of_offset? hk
    have hlt := (offset?_eq_some_iff.1 hk).1
    rw [fillPadding_eq_foldedBelow, foldedBelow, flagsAt_mark _ hk]
    simp only [← filled_address_iff hlt]
    split <;> simp
  · obtain ⟨g, _, hmark⟩ := (folds_fillPadding m).inert
    rw [filled_of_not_contains hb, hmark, flagsAt_of_not_contains (by simpa using hb),
      flagsAt_of_not_contains hb]
    rfl

theorem isExecuted_flagsAt_fillPadding (ha : a ∈ m.starts) :
    (m.fillPadding.flagsAt a).isExecuted = ((m.flagsAt a).isExecuted || m.fills a) := by
  obtain ⟨i, hi, hstart, rfl⟩ := mem_starts.1 ha
  have hlow : m.fillPadding.low = m.low := low_fillPadding m
  have hi' : i < m.fillPadding.size := by rwa [size_fillPadding]
  rw [flagsAt_address_of_low hlow hi', isExecuted_fillPadding hstart, carries_succ hstart,
    flagsAt_address hi, fills_address hi hstart, folds, hstart]
  cases (m.byte i).isExecuted <;> simp

theorem fillPadding_fillPadding (m : CoverageMap) : m.fillPadding.fillPadding = m.fillPadding := by
  -- Execution has carried over as far as it can.
  have hnone : ∀ i, m.fillPadding.folds i = false := by
    intro i
    by_cases hstart : m.isStartAt i = true
    · have hnop : (m.fillPadding.byte i).isNop = (m.byte i).isNop :=
        meets_byte_fillPadding (by decide) i
      rw [folds, isExecuted_fillPadding hstart, carries_fillPadding, hnop, carries_succ hstart]
      cases (m.byte i).isNop <;> cases m.carries i <;> simp
    · rw [folds, ← (folds_fillPadding m).sameStarts.starts i, Bool.eq_false_iff.2 hstart]
      rfl
  rw [fillPadding_eq_foldedBelow m.fillPadding, foldedBelow]
  simp only [hnone, Bool.false_eq_true, false_and, and_false, exists_false, if_false, mark_empty]

theorem isExecuted_fillPadding_mono (hlow : m'.low = m.low) (hstarts : m.SameStarts m')
    (hnop : ∀ i < m.size, (m.byte i).isNop = (m'.byte i).isNop)
    (hran : ∀ a ∈ m.starts, (m.flagsAt a).isExecuted = true → (m'.flagsAt a).isExecuted = true)
    (ha : a ∈ m.starts) (h : (m.fillPadding.flagsAt a).isExecuted = true) :
    (m'.fillPadding.flagsAt a).isExecuted = true := by
  obtain ⟨i, hi, hstart, rfl⟩ := mem_starts.1 ha
  have hi' : i < m'.size := hstarts.size ▸ hi
  rw [flagsAt_address_of_low (low_fillPadding m) (by rwa [size_fillPadding]),
    isExecuted_fillPadding hstart] at h
  rw [flagsAt_address_of_low ((low_fillPadding m').trans hlow) (by rwa [size_fillPadding]),
    isExecuted_fillPadding (hstarts.starts i ▸ hstart)]
  refine carries_mono hstarts (fun k hk => ?_) (fun k hk hkran => ?_) h
  · rw [hnop k (lt_size_of_isStartAt hk)]
    exact id
  · have hlt := lt_size_of_isStartAt hk
    have hkran' := hran (m.address k) (mem_starts.2 ⟨k, hlt, hk, rfl⟩)
    rw [flagsAt_address hlt, flagsAt_address_of_low hlow (hstarts.size ▸ hlt)] at hkran'
    exact hkran' hkran

/-- The fold executes an instruction exactly if it is padding that did not run, and the first other
instruction before it is there and ran. Such an instruction is executed to its last byte, and no
other flag of any byte changes. A second fold changes nothing, and of two maps of the same code, the
one in which more instructions ran has more of them executed after the fold. -/
theorem fillPadding_exact (m : CoverageMap) :
    (∀ a ∈ m.starts, (m.flagsAt a).isExecuted = false ∧
      (m.fillPadding.flagsAt a).isExecuted = true ↔ m.fills a = true) ∧
    (m.fillPadding.low = m.low ∧ m.fillPadding.size = m.size ∧
      ∀ b, m.fillPadding.flagsAt b =
        if m.filled b then (m.flagsAt b).union Flags.executed else m.flagsAt b) ∧
    m.fillPadding.fillPadding = m.fillPadding ∧
    ∀ m' : CoverageMap, m'.low = m.low → m.SameStarts m' →
      (∀ i < m.size, (m.byte i).isNop = (m'.byte i).isNop) →
      (∀ a ∈ m.starts, (m.flagsAt a).isExecuted = true → (m'.flagsAt a).isExecuted = true) →
      ∀ a ∈ m.starts, (m.fillPadding.flagsAt a).isExecuted = true →
        (m'.fillPadding.flagsAt a).isExecuted = true := by
  refine ⟨fun a ha => ?_, ⟨low_fillPadding m, size_fillPadding m, flagsAt_fillPadding m⟩,
    fillPadding_fillPadding m, fun m' hlow hstarts hnop hran a ha =>
      isExecuted_fillPadding_mono hlow hstarts hnop hran ha⟩
  rw [isExecuted_flagsAt_fillPadding ha, fills, idle]
  cases (m.flagsAt a).isExecuted <;> simp

def idling : CoverageMap where
  low := 0
  flags := #[.start ||| .executed, .start ||| .nop, .start ||| .nop, .empty, .start]
  nonempty := by decide
  fits := by decide

theorem fillPadding_exact_idling :
    (idling.fillPadding.flagsAt 2).isExecuted = true ∧
      idling.fillPadding.flagsAt 3 = Flags.executed ∧ idling.fillPadding.flagsAt 4 = Flags.start ∧
      ((idling.set 4 .executed).fillPadding.flagsAt 2).isExecuted = true := by
  obtain ⟨hstarts, ⟨_, _, hbytes⟩, _, hmono⟩ := fillPadding_exact idling
  have hmem : (2 : Address) ∈ idling.starts := by decide
  have hfilled := ((hstarts 2 hmem).2 (by decide)).2
  have hmore : (idling.starts.all fun a =>
      !(idling.flagsAt a).isExecuted || ((idling.set 4 .executed).flagsAt a).isExecuted) =
        true := by
    decide
  refine ⟨hfilled, by rw [hbytes]; decide, by rw [hbytes]; decide,
    hmono (idling.set 4 .executed) (by decide) (by decide) (by decide) (fun a ha hran => ?_) 2 hmem
      hfilled⟩
  simpa [hran] using List.all_eq_true.1 hmore a ha

end TraceCoverage.CoverageMap

import TraceCoverage.Proofs.Symbol.Execution
import TraceCoverage.Proofs.Symbol.Folding

/-!
# Merging maps of the same code

A map of the same code as another shows no instruction that the other does not. Merging it adds
what ran and which ways branches went, and leaves the instructions as they are.
-/

namespace TraceCoverage.CoverageMap

variable {m m' o : CoverageMap} {a : Address} {i : Nat}

/-- Every instruction, branch and padding of the map is one of the other map. -/
structure WithinLayout (o m : CoverageMap) : Prop where
  start : ∀ i < m.size, (o.byte i).isStart = true → (m.byte i).isStart = true
  branch : ∀ i < m.size, (o.byte i).isBranch = true → (m.byte i).isBranch = true
  nop : ∀ i < m.size, (o.byte i).isNop = true → (m.byte i).isNop = true

instance (o m : CoverageMap) : Decidable (o.WithinLayout m) :=
  decidable_of_iff
    ((∀ i < m.size, (o.byte i).isStart = true → (m.byte i).isStart = true) ∧
      (∀ i < m.size, (o.byte i).isBranch = true → (m.byte i).isBranch = true) ∧
        ∀ i < m.size, (o.byte i).isNop = true → (m.byte i).isNop = true)
    ⟨fun ⟨hstart, hbranch, hnop⟩ => ⟨hstart, hbranch, hnop⟩,
      fun h => ⟨h.start, h.branch, h.nop⟩⟩

/-! ## Maps with the same starts -/

theorem lt_size_of_isStartAt (hstart : m.isStartAt i = true) : i < m.size := by
  by_contra hi
  rw [isStartAt_eq, byte_of_size_le (Nat.le_of_not_lt hi)] at hstart
  cases hstart

theorem address_eq_of_low (hlow : m'.low = m.low) : m'.address = m.address := by
  funext i
  rw [address, address, hlow]

theorem flagsAt_address_of_low (hlow : m'.low = m.low) (hi : i < m'.size) :
    m'.flagsAt (m.address i) = m'.byte i := by
  rw [← flagsAt_address hi, address_eq_of_low hlow]

section

variable (h : m.SameStarts m') (hlow : m'.low = m.low)
include h hlow

theorem SameStarts.offset?_eq : m'.offset? = m.offset? := by
  funext a
  apply Option.ext
  intro i
  rw [offset?_eq_some_iff, offset?_eq_some_iff, hlow, h.size]

theorem SameStarts.contains_eq : m'.contains = m.contains := by
  funext a
  rw [Bool.eq_iff_iff, contains_iff, contains_iff, hlow, h.size]

theorem SameStarts.starts_eq : m'.starts = m.starts := by
  have hstarts : m'.isStartAt = m.isStartAt := funext fun i => (h.starts i).symm
  have hsize : m'.flags.size = m.flags.size := h.size.symm
  rw [CoverageMap.starts, CoverageMap.starts, hstarts, hsize, address_eq_of_low hlow]

theorem SameStarts.nextStart?_eq : m'.nextStart? = m.nextStart? := by
  have hstarts : m'.isStartAt = m.isStartAt := funext fun i => (h.starts i).symm
  have hsize : m'.flags.size = m.flags.size := h.size.symm
  have hfrom : m'.startFrom? = m.startFrom? := by
    funext i
    rw [startFrom?, startFrom?, hstarts, hsize]
  funext a
  rw [nextStart?, nextStart?, hlow, h.offset?_eq hlow, address_eq_of_low hlow, hfrom]

theorem SameStarts.high_eq : m'.high = m.high := by
  rw [← UInt32.toNat_inj, toNat_high, toNat_high, hlow, h.size]

end

/-! ## Folded maps -/

theorem Folds.sameStarts (h : m.Folds m') : m.SameStarts m' := by
  obtain ⟨g, hg, rfl⟩ := h.inert
  exact sameStarts_mark hg

theorem Folds.low_eq (h : m.Folds m') : m'.low = m.low := by
  obtain ⟨g, _, rfl⟩ := h.inert
  exact low_mark g

theorem Folds.meets_byte (h : m.Folds m') {f : Flags} (hf : Flags.executed.meets f = false)
    (i : Nat) : (m'.byte i).meets f = (m.byte i).meets f := by
  obtain ⟨folded, rfl⟩ := h
  rcases Nat.lt_or_ge i m.size with hi | hi
  · rw [byte_mark _ hi, Flags.meets_union]
    split
    next => rw [hf, Bool.or_false]
    next => rw [Flags.empty_meets, Bool.or_false]
  · rw [byte_of_size_le hi, byte_of_size_le (by simpa using hi)]

theorem Folds.isExecuted_byte (h : m.Folds m') (hran : (m.byte i).isExecuted = true) :
    (m'.byte i).isExecuted = true := by
  obtain ⟨folded, rfl⟩ := h
  rcases Nat.lt_or_ge i m.size with hi | hi
  · rw [byte_mark _ hi, Flags.isExecuted_union, hran, Bool.true_or]
  · rw [byte_of_size_le hi] at hran
    cases hran

theorem WithinLayout.of_folds (ho : o.WithinLayout m) (h : m.Folds m') : o.WithinLayout m' := by
  obtain ⟨folded, rfl⟩ := h
  constructor
  all_goals
    intro i hi hbit
    rw [size_mark] at hi
    rw [byte_mark _ hi]
  case start => rw [Flags.isStart_union, ho.start i hi hbit, Bool.true_or]
  case branch => rw [Flags.isBranch_union, ho.branch i hi hbit, Bool.true_or]
  case nop => rw [Flags.isNop_union, ho.nop i hi hbit, Bool.true_or]

/-! ## Merging -/

namespace WithinLayout

variable (h : o.WithinLayout m)
include h

theorem isStartAt_merge (i : Nat) : (m.merge o).isStartAt i = m.isStartAt i := by
  rw [isStartAt_eq, isStartAt_eq]
  rcases Nat.lt_or_ge i m.size with hi | hi
  · rw [byte_merge hi, Flags.isStart_union, Bool.or_eq_left_iff_imp]
    exact h.start i hi
  · rw [byte_of_size_le hi, byte_of_size_le (by simpa using hi)]

theorem isBranch_merge (hi : i < m.size) : ((m.merge o).byte i).isBranch = (m.byte i).isBranch := by
  rw [byte_merge hi, Flags.isBranch_union, Bool.or_eq_left_iff_imp]
  exact h.branch i hi

theorem isNop_merge (hi : i < m.size) : ((m.merge o).byte i).isNop = (m.byte i).isNop := by
  rw [byte_merge hi, Flags.isNop_union, Bool.or_eq_left_iff_imp]
  exact h.nop i hi

theorem merge (o' : CoverageMap) : o.WithinLayout (m.merge o') := by
  constructor
  all_goals
    intro i hi hbit
    rw [size_merge] at hi
    rw [byte_merge hi]
  case start => rw [Flags.isStart_union, h.start i hi hbit, Bool.true_or]
  case branch => rw [Flags.isBranch_union, h.branch i hi hbit, Bool.true_or]
  case nop => rw [Flags.isNop_union, h.nop i hi hbit, Bool.true_or]

theorem sameStarts_merge : m.SameStarts (m.merge o) :=
  ⟨size_merge.symm, fun i _ => (h.isStartAt_merge i).symm⟩

end WithinLayout

end TraceCoverage.CoverageMap

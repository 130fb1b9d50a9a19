import TraceCoverage.Coverage.Flags

/-!
# Sets of flags

Union makes sets of flags a commutative and idempotent monoid, and a flag is in a union exactly if
it is in one of the parts.
-/

namespace TraceCoverage.Flags

/-! ## Union -/

theorem union_comm (a b : Flags) : a.union b = b.union a := by
  simp only [union, UInt8.or_comm]

theorem union_assoc (a b c : Flags) : (a.union b).union c = a.union (b.union c) := by
  simp only [union, UInt8.or_assoc]

@[simp]
theorem union_self (a : Flags) : a.union a = a := by
  simp only [union, UInt8.or_self]

@[simp]
theorem union_empty (a : Flags) : a.union empty = a := by
  simp [union, empty]

@[simp]
theorem empty_union (a : Flags) : empty.union a = a := by
  simp [union, empty]

theorem union_right_comm (a b c : Flags) : (a.union b).union c = (a.union c).union b := by
  rw [union_assoc, union_comm b c, ← union_assoc]

theorem meets_union (a b f : Flags) : (a.union b).meets f = (a.meets f || b.meets f) := by
  have h : (a.bits ||| b.bits) &&& f.bits = (a.bits &&& f.bits) ||| (b.bits &&& f.bits) := by
    apply UInt8.eq_of_toBitVec_eq
    ext i hi
    simp [Bool.and_or_distrib_right]
  simp only [meets, union, h]
  rw [Bool.eq_iff_iff]
  simp [UInt8.or_eq_zero_iff, Decidable.imp_iff_not_or]

@[simp]
theorem empty_meets (f : Flags) : empty.meets f = false := by
  simp [meets, empty]

theorem isStart_union (a b : Flags) : (a.union b).isStart = (a.isStart || b.isStart) :=
  meets_union a b start

theorem isBranch_union (a b : Flags) : (a.union b).isBranch = (a.isBranch || b.isBranch) :=
  meets_union a b branch

theorem isNop_union (a b : Flags) : (a.union b).isNop = (a.isNop || b.isNop) :=
  meets_union a b nop

theorem isExecuted_union (a b : Flags) :
    (a.union b).isExecuted = (a.isExecuted || b.isExecuted) :=
  meets_union a b executed

theorem isTaken_union (a b : Flags) : (a.union b).isTaken = (a.isTaken || b.isTaken) :=
  meets_union a b taken

theorem isNotTaken_union (a b : Flags) :
    (a.union b).isNotTaken = (a.isNotTaken || b.isNotTaken) :=
  meets_union a b notTaken

theorem hasDirection_union (a b : Flags) :
    (a.union b).hasDirection = (a.hasDirection || b.hasDirection) :=
  meets_union a b (taken ||| notTaken)

theorem hasDirection_eq (f : Flags) : f.hasDirection = (f.isTaken || f.isNotTaken) := by
  have h : ∀ x : UInt8, x &&& 48 = (x &&& 16) ||| (x &&& 32) := by
    intro x
    rw [← UInt8.toBitVec_inj]
    ext i hi
    have : i = 0 ∨ i = 1 ∨ i = 2 ∨ i = 3 ∨ i = 4 ∨ i = 5 ∨ i = 6 ∨ i = 7 := by omega
    rcases this with rfl | rfl | rfl | rfl | rfl | rfl | rfl | rfl <;> simp
  have h48 : (taken ||| notTaken).bits = 48 := rfl
  simp only [hasDirection, isTaken, isNotTaken, meets, h48, h]
  rw [Bool.eq_iff_iff]
  simp [taken, notTaken, UInt8.or_eq_zero_iff, Decidable.imp_iff_not_or]

/-! ## What traces show -/

def evidence (wasExecuted wasTaken wasNotTaken : Bool) : Flags :=
  ((if wasExecuted then executed else empty).union (if wasTaken then taken else empty)).union
    (if wasNotTaken then notTaken else empty)

variable (x t n : Bool)

@[simp]
theorem evidence_false : evidence false false false = empty := rfl

theorem evidence_union (x' t' n' : Bool) :
    (evidence x t n).union (evidence x' t' n') = evidence (x || x') (t || t') (n || n') := by
  cases x <;> cases t <;> cases n <;> cases x' <;> cases t' <;> cases n' <;> rfl

@[simp]
theorem isStart_evidence : (evidence x t n).isStart = false := by
  cases x <;> cases t <;> cases n <;> rfl

@[simp]
theorem isBranch_evidence : (evidence x t n).isBranch = false := by
  cases x <;> cases t <;> cases n <;> rfl

@[simp]
theorem isNop_evidence : (evidence x t n).isNop = false := by
  cases x <;> cases t <;> cases n <;> rfl

@[simp]
theorem isExecuted_evidence : (evidence x t n).isExecuted = x := by
  cases x <;> cases t <;> cases n <;> rfl

@[simp]
theorem isTaken_evidence : (evidence x t n).isTaken = t := by
  cases x <;> cases t <;> cases n <;> rfl

@[simp]
theorem isNotTaken_evidence : (evidence x t n).isNotTaken = n := by
  cases x <;> cases t <;> cases n <;> rfl

/-! ## Apart from directions -/

theorem union_diff (a b c : Flags) : (a.union b).diff c = (a.diff c).union (b.diff c) := by
  simp only [union, diff, mk.injEq]
  apply UInt8.eq_of_toBitVec_eq
  ext i hi
  simp [Bool.and_or_distrib_right]

theorem evidence_diff_directions :
    (evidence x t n).diff (taken ||| notTaken) = evidence x false false := by
  cases x <;> cases t <;> cases n <;> rfl

theorem diff_union_evidence (f : Flags) :
    (f.diff (taken ||| notTaken)).union (evidence false f.isTaken f.isNotTaken) = f := by
  have hbits : ∀ b : BitVec 8, ((⟨⟨b⟩⟩ : Flags).diff (taken ||| notTaken)).union
      (evidence false (Flags.isTaken ⟨⟨b⟩⟩) (Flags.isNotTaken ⟨⟨b⟩⟩)) = ⟨⟨b⟩⟩ := by
    decide +kernel
  obtain ⟨⟨b⟩⟩ := f
  exact hbits b

theorem ext_directions {a b : Flags}
    (hrest : a.diff (taken ||| notTaken) = b.diff (taken ||| notTaken))
    (htaken : a.isTaken = b.isTaken) (hnotTaken : a.isNotTaken = b.isNotTaken) : a = b := by
  rw [← diff_union_evidence a, hrest, htaken, hnotTaken, diff_union_evidence]

end TraceCoverage.Flags

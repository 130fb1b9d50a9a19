import TraceCoverage.Proofs.Coverage.Bytes
import TraceCoverage.Symbol.Analysis

/-!
# Folding padding into executed code

The fold goes along the instruction starts and marks some of them as executed. Whatever such a mark
keeps, the fold keeps.
-/

namespace TraceCoverage.CoverageMap

variable {m : CoverageMap}

/-- What holds of a map and is kept by marking its starts holds when the padding is folded. -/
theorem fillPadding_induction {P : CoverageMap → Prop} (hm : P m)
    (hmark : ∀ o, P o → ∀ a ∈ m.starts, P (o.markExecuted a)) : P m.fillPadding := by
  have hfold : ∀ (starts : List Address) (state : CoverageMap × Bool), P state.1 →
      (∀ a ∈ starts, a ∈ m.starts) → P (starts.foldl fillStep state).1 := by
    intro starts
    induction starts with
    | nil => exact fun _ hP _ => hP
    | cons a rest ih =>
      intro state hP hstarts
      rw [List.forall_mem_cons] at hstarts
      refine ih _ ?_ hstarts.2
      unfold fillStep
      simp only
      split
      next => exact hmark _ hP a hstarts.1
      next => exact hP
  exact hfold m.starts (m, false) hm fun _ ha => ha

@[simp]
theorem low_fillPadding (m : CoverageMap) : m.fillPadding.low = m.low :=
  fillPadding_induction (P := fun o => o.low = m.low) rfl fun _ ho a _ =>
    (low_markExecuted a).trans ho

@[simp]
theorem size_fillPadding (m : CoverageMap) : m.fillPadding.size = m.size :=
  fillPadding_induction (P := fun o => o.size = m.size) rfl fun _ ho a _ =>
    (size_markExecuted a).trans ho

theorem meets_byte_fillPadding {f : Flags} (hf : Flags.executed.meets f = false) (i : Nat) :
    (m.fillPadding.byte i).meets f = (m.byte i).meets f := by
  refine fillPadding_induction (P := fun o => (o.byte i).meets f = (m.byte i).meets f) rfl
    fun o ho a _ => ?_
  rw [byte_markExecuted, ← ho]
  split
  next => rw [Flags.meets_union, hf, Bool.or_false]
  next => rfl

theorem isBranch_byte_fillPadding (i : Nat) :
    (m.fillPadding.byte i).isBranch = (m.byte i).isBranch :=
  meets_byte_fillPadding (by decide) i

end TraceCoverage.CoverageMap

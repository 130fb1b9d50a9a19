import TraceCoverage.Proofs.Symbol.Execution
import TraceCoverage.Proofs.Symbol.Folding

/-!
# Flags that fit together

Six flags are set in different places. Those of one byte fit together if only an instruction start
is a branch or padding, and only a branch that ran went some way. Whatever adds flags that fit
together keeps this, and lines, merges and the padding fold add no others.
-/

namespace TraceCoverage

structure Flags.Coherent (f : Flags) : Prop where
  start : f.isBranch = true ∨ f.isNop = true → f.isStart = true
  direction : f.isTaken = true ∨ f.isNotTaken = true → f.isBranch = true ∧ f.isExecuted = true

namespace Flags

variable {f g : Flags}

theorem coherent_empty : empty.Coherent := by
  constructor <;> decide

theorem coherent_executed : executed.Coherent := by
  constructor <;> decide

theorem Coherent.union (hf : f.Coherent) (hg : g.Coherent) : (f.union g).Coherent := by
  constructor
  case start =>
    rw [isBranch_union, isNop_union, isStart_union, Bool.or_eq_true, Bool.or_eq_true,
      Bool.or_eq_true, or_or_or_comm]
    rintro (h | h)
    · exact .inl (hf.start h)
    · exact .inr (hg.start h)
  case direction =>
    rw [isTaken_union, isNotTaken_union, isBranch_union, isExecuted_union, Bool.or_eq_true,
      Bool.or_eq_true, Bool.or_eq_true, Bool.or_eq_true, or_or_or_comm]
    rintro (h | h)
    · exact ⟨.inl (hf.direction h).1, .inl (hf.direction h).2⟩
    · exact ⟨.inr (hg.direction h).1, .inr (hg.direction h).2⟩

/-- Evidence fits to the flags of a byte if it has a direction only where the byte is a branch that
it shows running. -/
theorem Coherent.union_evidence (hf : f.Coherent) {wasExecuted wasTaken wasNotTaken : Bool}
    (hshown : wasTaken = true ∨ wasNotTaken = true → f.isBranch = true ∧ wasExecuted = true) :
    (f.union (evidence wasExecuted wasTaken wasNotTaken)).Coherent := by
  constructor
  case start =>
    rw [isBranch_union, isNop_union, isStart_union, isBranch_evidence, isNop_evidence,
      isStart_evidence, Bool.or_false, Bool.or_false, Bool.or_false]
    exact hf.start
  case direction =>
    rw [isTaken_union, isNotTaken_union, isBranch_union, isExecuted_union, isBranch_evidence,
      isTaken_evidence, isNotTaken_evidence, isExecuted_evidence, Bool.or_false, Bool.or_eq_true,
      Bool.or_eq_true, Bool.or_eq_true, or_or_or_comm]
    rintro (h | h)
    · exact ⟨(hf.direction h).1, .inl (hf.direction h).2⟩
    · exact ⟨(hshown h).1, .inr (hshown h).2⟩

end Flags

namespace CodeLine

theorem coherent_flags (l : CodeLine) : l.flags.Coherent := by
  constructor
  case start => exact fun _ => isStart_flags l
  case direction =>
    have htaken : l.flags.isTaken = false := meets_flags l (by decide) (by decide) (by decide)
    have hnotTaken : l.flags.isNotTaken = false := meets_flags l (by decide) (by decide) (by decide)
    rw [htaken, hnotTaken]
    simp

theorem coherent_flagsAt (lines : List CodeLine) (a : Address) : (flagsAt lines a).Coherent := by
  induction lines with
  | nil => exact Flags.coherent_empty
  | cons l rest ih =>
    rw [flagsAt]
    split
    next => exact (coherent_flags l).union ih
    next => exact Flags.coherent_empty.union ih

end CodeLine

namespace CoverageMap

variable {m o : CoverageMap}

def Coherent (m : CoverageMap) : Prop := ∀ i, (m.byte i).Coherent

theorem coherent_of_lt (h : ∀ i < m.size, (m.byte i).Coherent) : m.Coherent := by
  intro i
  rcases Nat.lt_or_ge i m.size with hi | hi
  · exact h i hi
  · rw [byte_of_size_le hi]
    exact Flags.coherent_empty

theorem coherent_ofSize {size : UInt32} (h : ofSize size = .ok m) : m.Coherent := by
  unfold ofSize at h
  split at h
  next => cases h
  next =>
    obtain ⟨_, _, _, hblank⟩ := ofRange_eq_ok h
    intro i
    rw [hblank]
    exact Flags.coherent_empty

theorem Coherent.mark (h : m.Coherent) {g : Nat → Flags} (hg : ∀ i, (g i).Coherent) :
    (m.mark g).Coherent := by
  apply coherent_of_lt
  intro i hi
  rw [byte_mark _ (by simpa using hi)]
  exact (h i).union (hg i)

theorem Coherent.merge (h : m.Coherent) (ho : o.Coherent) : (m.merge o).Coherent := by
  rw [merge_eq_mark]
  exact h.mark ho

theorem Coherent.markExecuted (h : m.Coherent) (a : Address) : (m.markExecuted a).Coherent := by
  rw [markExecuted_eq_mark]
  apply h.mark
  intro i
  split
  next => exact Flags.coherent_executed
  next => exact Flags.coherent_empty

theorem Coherent.fillPadding (h : m.Coherent) : m.fillPadding.Coherent :=
  fillPadding_induction (P := Coherent) h fun _ ho a _ => ho.markExecuted a

theorem coherent_lineMarks (m : CoverageMap) (base : Address) (lines : List CodeLine) (i : Nat) :
    (m.lineMarks base lines i).Coherent := by
  induction lines with
  | nil => exact Flags.coherent_empty
  | cons l rest ih =>
    rw [lineMarks]
    split
    next => exact l.coherent_flags.union ih
    next => exact Flags.coherent_empty.union ih

theorem Coherent.markLines (h : m.Coherent) (base : Address) (lines : List CodeLine) :
    (m.markLines base lines).1.Coherent := by
  unfold CoverageMap.markLines
  rw [foldl_markLine_eq_mark]
  exact h.mark (coherent_lineMarks m base lines)

theorem Finishes.next (h : m.Finishes) {i : Nat} (hi : i + 1 < m.size)
    (hran : (m.byte i).isExecuted = true) (hstart : (m.byte (i + 1)).isStart = false) :
    (m.byte (i + 1)).isExecuted = true := by
  refine h i (i + 1) ⟨Nat.le_succ i, hi, ?_⟩ hran
  intro j hij hji
  obtain rfl : j = i + 1 := by omega
  rw [isStartAt_eq]
  exact hstart

end CoverageMap

end TraceCoverage

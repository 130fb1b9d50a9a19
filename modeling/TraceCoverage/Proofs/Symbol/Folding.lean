import TraceCoverage.Proofs.Symbol.Branches
import TraceCoverage.Proofs.Symbol.Padding

/-!
# Maps with folded padding

An analysis leaves padding in the map of its symbol marked as executed, and the next analysis reads
it. All that comes between adds flags, so such a map is the map without the fold with some more
bytes executed, and it is exactly these bytes that change a verdict.
-/

namespace TraceCoverage

theorem BranchClass.reported_injective : Function.Injective reported := by
  intro c c' h
  cases c <;> cases c' <;> first | rfl | simp [reported] at h

namespace CoverageMap

variable {m m' m'' o : CoverageMap} {a : Address}

/-! ## Folded maps -/

/-- The other map is this one with some more bytes executed. -/
def Folds (m m' : CoverageMap) : Prop :=
  ∃ folded : Nat → Bool, m' = m.mark fun i => if folded i then Flags.executed else Flags.empty

theorem Folds.refl (m : CoverageMap) : m.Folds m := ⟨fun _ => false, mark_empty.symm⟩

theorem Folds.trans (h : m.Folds m') (h' : m'.Folds m'') : m.Folds m'' := by
  obtain ⟨folded, rfl⟩ := h
  obtain ⟨folded', rfl⟩ := h'
  refine ⟨fun i => folded i || folded' i, ?_⟩
  rw [mark_mark]
  congr 1
  funext i
  by_cases hi : folded i <;> by_cases hi' : folded' i <;> simp [hi, hi']

open Classical in
theorem folds_markExecuted (m : CoverageMap) (a : Address) : m.Folds (m.markExecuted a) := by
  refine ⟨fun k => decide (∃ i, m.offset? a = some i ∧ m.Spans i k), ?_⟩
  rw [markExecuted_eq_mark]
  simp only [decide_eq_true_eq]

theorem folds_fillPadding (m : CoverageMap) : m.Folds m.fillPadding :=
  fillPadding_induction (P := m.Folds) (.refl m) fun o ho a _ => ho.trans (folds_markExecuted o a)

theorem Folds.fillPadding (h : m.Folds m') : m.Folds m'.fillPadding :=
  h.trans (folds_fillPadding m')

theorem Folds.merge (h : m.Folds m') (o : CoverageMap) : (m.merge o).Folds (m'.merge o) := by
  obtain ⟨folded, rfl⟩ := h
  refine ⟨folded, ?_⟩
  rw [merge_eq_mark, merge_eq_mark, mark_mark, mark_mark]
  congr 1
  funext i
  exact Flags.union_comm _ _

/-! ## Lines in folded maps -/

section

variable (base : Address) (lines : List CodeLine)

def lineMarks (m : CoverageMap) (base : Address) : List CodeLine → Nat → Flags
  | [], _ => Flags.empty
  | l :: rest, i =>
    (if (l.address.bind (fromBase? base)).bind m.offset? = some i then l.flags
      else Flags.empty).union (lineMarks m base rest i)

theorem lineMarks_mark (g : Nat → Flags) :
    (m.mark g).lineMarks base lines = m.lineMarks base lines := by
  have hoffset : (m.mark g).offset? = m.offset? := funext fun a => offset?_mark g a
  funext i
  induction lines with
  | nil => rfl
  | cons l rest ih => rw [lineMarks, lineMarks, hoffset, ih]

theorem foldl_markLine_eq_mark (state : CoverageMap × TargetOffsets) :
    (lines.foldl (markLine base) state).1 = state.1.mark (state.1.lineMarks base lines) := by
  induction lines generalizing state with
  | nil => exact mark_empty.symm
  | cons l rest ih =>
    rw [List.foldl_cons, ih, markLine_fst]
    cases ho : l.address.bind (fromBase? base) with
    | none =>
      rw [Option.map_none, Option.getD_none]
      congr 1
      funext i
      simp [lineMarks, ho]
    | some o =>
      rw [Option.map_some, Option.getD_some, set_eq_mark, lineMarks_mark, mark_mark]
      congr 1
      funext i
      simp [lineMarks, ho]

theorem markLines_mark (m : CoverageMap) (g : Nat → Flags) :
    ((m.mark g).markLines base lines).1 = (m.markLines base lines).1.mark g := by
  unfold markLines
  rw [foldl_markLine_eq_mark, foldl_markLine_eq_mark]
  simp only [lineMarks_mark, mark_mark]
  congr 1
  funext i
  exact Flags.union_comm _ _

theorem markLines_markLines (m : CoverageMap) :
    ((m.markLines base lines).1.markLines base lines).1 = (m.markLines base lines).1 := by
  unfold markLines
  rw [foldl_markLine_eq_mark, foldl_markLine_eq_mark]
  simp only [lineMarks_mark, mark_mark, Flags.union_self]

theorem targets_markLines (m o : CoverageMap) :
    (m.markLines base lines).2 = (o.markLines base lines).2 := by
  apply Std.ExtTreeMap.ext_getElem?
  intro a
  unfold markLines
  rw [getElem?_foldl_markLine, getElem?_foldl_markLine]

theorem markLines_merge (m o : CoverageMap) :
    ((m.merge o).markLines base lines).1 = (m.markLines base lines).1.merge o := by
  rw [merge_eq_mark, merge_eq_mark, markLines_mark]

theorem markLines_fillPadding (m : CoverageMap) :
    ((m.markLines base lines).1.fillPadding.markLines base lines).1 =
      (m.markLines base lines).1.fillPadding := by
  obtain ⟨folded, hfolded⟩ := folds_fillPadding (m.markLines base lines).1
  rw [hfolded, markLines_mark, markLines_markLines]

end

/-! ## Verdicts in folded maps -/

/-- The verdict of a branch changes with the bytes that the other map has executed as well: the
branch itself is one of them, or it ran without a direction, and its target is one of them, or its
target was seen and the instruction behind it is one of them. -/
def Misread (m m' : CoverageMap) (branch : Address) (target : Option Address) : Prop :=
  let folded a := (m.flagsAt a).isExecuted = false ∧ (m'.flagsAt a).isExecuted = true
  folded branch ∨
    (m.flagsAt branch).isExecuted = true ∧ (m.flagsAt branch).hasDirection = false ∧
      ((∃ t ∈ target, m.contains t = true ∧ folded t) ∨
        (∀ t ∈ target, m.contains t = true → (m.flagsAt t).isExecuted = true) ∧
          ∃ next ∈ m.nextStart? branch, folded next)

namespace Folds

variable (h : m.Folds m')
include h

theorem meets {f : Flags} (hf : Flags.executed.meets f = false) (a : Address) :
    (m'.flagsAt a).meets f = (m.flagsAt a).meets f := by
  obtain ⟨folded, rfl⟩ := h
  apply meets_flagsAt_mark
  intro i
  split
  next => exact hf
  next => exact Flags.empty_meets f

theorem isExecuted (hran : (m.flagsAt a).isExecuted = true) :
    (m'.flagsAt a).isExecuted = true := by
  obtain ⟨folded, rfl⟩ := h
  by_cases ha : m.contains a = true
  · obtain ⟨k, hk⟩ := exists_offset? ha
    rw [flagsAt_mark _ hk, Flags.isExecuted_union, hran, Bool.true_or]
  · rw [flagsAt_of_not_contains ha] at hran
    cases hran

theorem inert : ∃ g, (∀ i, (g i).isStart = false) ∧ m' = m.mark g := by
  obtain ⟨folded, rfl⟩ := h
  refine ⟨_, ?_, rfl⟩
  intro i
  split <;> decide

theorem contains_eq : m'.contains = m.contains := by
  obtain ⟨g, _, rfl⟩ := h.inert
  exact funext fun a => contains_mark g a

theorem nextStart?_eq : m'.nextStart? = m.nextStart? := by
  obtain ⟨g, hg, rfl⟩ := h.inert
  exact funext fun a => nextStart?_mark hg a

theorem starts_eq : m'.starts = m.starts := by
  obtain ⟨g, hg, rfl⟩ := h.inert
  exact starts_mark hg

theorem instructionEnd_eq (a : Address) : m'.instructionEnd a = m.instructionEnd a := by
  have hnext := h.nextStart?_eq
  obtain ⟨g, _, rfl⟩ := h.inert
  rw [instructionEnd, instructionEnd, hnext, high_mark]

end Folds

theorem classify_of_ran (hran : (m.flagsAt a).isExecuted = true)
    (hdirection : (m.flagsAt a).hasDirection = false) (target : Option Address) :
    m.classify a target =
      if (target.filter m.contains).all fun t => (m.flagsAt t).isExecuted then
        if (m.nextStart? a).any fun next => (m.flagsAt next).isExecuted then .executedBoth
        else .alwaysTaken
      else .neverTaken := by
  rw [classify, if_pos hran, pathsSeen, hdirection]
  cases (target.filter m.contains).all fun t => (m.flagsAt t).isExecuted <;>
    cases (m.nextStart? a).any fun next => (m.flagsAt next).isExecuted <;> rfl

theorem classify_eq_executedBoth_iff_of_hasDirection
    (hdirection : (m.flagsAt a).hasDirection = true) (target : Option Address) :
    m.classify a target = .executedBoth ↔ (m.flagsAt a).isExecuted = true ∧
      (m.flagsAt a).isTaken = true ∧ (m.flagsAt a).isNotTaken = true := by
  rw [classify, pathsSeen, if_pos hdirection]
  cases (m.flagsAt a).isExecuted <;> cases (m.flagsAt a).isTaken <;>
    cases (m.flagsAt a).isNotTaken <;> simp

theorem classify_eq_executedBoth_iff_of_not_hasDirection
    (hdirection : (m.flagsAt a).hasDirection = false) (target : Option Address) :
    m.classify a target = .executedBoth ↔ (m.flagsAt a).isExecuted = true ∧
      (∀ t ∈ target, m.contains t = true → (m.flagsAt t).isExecuted = true) ∧
        ∃ next ∈ m.nextStart? a, (m.flagsAt next).isExecuted = true := by
  have htarget : (target.filter m.contains).all (fun t => (m.flagsAt t).isExecuted) = true ↔
      ∀ t ∈ target, m.contains t = true → (m.flagsAt t).isExecuted = true := by
    rw [Option.all_eq_true]
    simp [Option.filter_eq_some_iff]
  have hnext : (m.nextStart? a).any (fun next => (m.flagsAt next).isExecuted) = true ↔
      ∃ next ∈ m.nextStart? a, (m.flagsAt next).isExecuted = true :=
    Option.any_eq_true _ _
  rw [classify, pathsSeen, hdirection, ← htarget, ← hnext]
  cases (m.flagsAt a).isExecuted <;>
    cases (target.filter m.contains).all fun t => (m.flagsAt t).isExecuted <;>
    cases (m.nextStart? a).any fun next => (m.flagsAt next).isExecuted <;> simp

theorem classify_eq_notExecuted_iff (target : Option Address) :
    m.classify a target = .notExecuted ↔ (m.flagsAt a).isExecuted = false := by
  unfold classify
  by_cases hran : (m.flagsAt a).isExecuted = true
  · rw [if_pos hran, hran]
    obtain ⟨taken, fell⟩ := m.pathsSeen a target
    cases taken <;> cases fell <;> simp
  · rw [if_neg hran]
    simpa using hran

theorem exists_grown_all {p q : Address → Bool} (o : Option Address) :
    (∃ x ∈ o, p x = false ∧ q x = true) ↔ o.all p = false ∧ o.all q = true := by
  cases o <;> simp

theorem exists_grown_any {p q : Address → Bool} (o : Option Address) :
    (∃ x ∈ o, p x = false ∧ q x = true) ↔ o.any p = false ∧ o.any q = true := by
  cases o <;> simp

theorem misread_of_ran (hran : (m.flagsAt a).isExecuted = true)
    (hdirection : (m.flagsAt a).hasDirection = false) (target : Option Address) :
    m.Misread m' a target ↔
      ((target.filter m.contains).all (fun t => (m.flagsAt t).isExecuted) = false ∧
        (target.filter m.contains).all (fun t => (m'.flagsAt t).isExecuted) = true) ∨
      (target.filter m.contains).all (fun t => (m.flagsAt t).isExecuted) = true ∧
        (m.nextStart? a).any (fun next => (m.flagsAt next).isExecuted) = false ∧
          (m.nextStart? a).any (fun next => (m'.flagsAt next).isExecuted) = true := by
  rw [← exists_grown_all, ← exists_grown_any, Option.all_eq_true]
  simp only [Misread, hran, hdirection, Option.filter_eq_some_iff, Option.mem_def,
    reduceCtorEq, false_and, false_or, true_and, and_assoc, and_imp]

/-- A folded map gives a branch the same verdict unless it is misread. -/
theorem classify_eq_iff (h : m.Folds m') (a : Address) (target : Option Address) :
    m'.classify a target = m.classify a target ↔ ¬ m.Misread m' a target := by
  cases hran : (m.flagsAt a).isExecuted with
  | false =>
    rw [(classify_eq_notExecuted_iff target).2 hran, classify_eq_notExecuted_iff]
    simp [Misread, hran]
  | true =>
    have hran' := h.isExecuted hran
    cases hdirection : (m.flagsAt a).hasDirection with
    | true =>
      have hdirection' : (m'.flagsAt a).hasDirection = true := by
        rw [← hdirection]
        exact h.meets (by decide) a
      have htaken : (m'.flagsAt a).isTaken = (m.flagsAt a).isTaken := h.meets (by decide) a
      have hnotTaken : (m'.flagsAt a).isNotTaken = (m.flagsAt a).isNotTaken :=
        h.meets (by decide) a
      rw [classify_of_hasDirection hran hdirection, classify_of_hasDirection hran' hdirection',
        htaken, hnotTaken]
      simp [Misread, hran, hdirection]
    | false =>
      have hdirection' : (m'.flagsAt a).hasDirection = false := by
        rw [← hdirection]
        exact h.meets (by decide) a
      have hseen : (target.filter m.contains).all (fun t => (m.flagsAt t).isExecuted) = true →
          (target.filter m.contains).all (fun t => (m'.flagsAt t).isExecuted) = true := by
        rw [Option.all_eq_true, Option.all_eq_true]
        intro hall t ht
        exact h.isExecuted (hall t ht)
      have hnext : (m.nextStart? a).any (fun next => (m.flagsAt next).isExecuted) = true →
          (m.nextStart? a).any (fun next => (m'.flagsAt next).isExecuted) = true := by
        rw [Option.any_eq_true, Option.any_eq_true]
        rintro ⟨next, hmem, hran⟩
        exact ⟨next, hmem, h.isExecuted hran⟩
      rw [classify_of_ran hran hdirection, classify_of_ran hran' hdirection', h.contains_eq,
        h.nextStart?_eq, misread_of_ran hran hdirection]
      -- Folding executes more, so each of the two checks can only come to hold.
      generalize (target.filter m.contains).all (fun t => (m.flagsAt t).isExecuted) = seen at *
      generalize (target.filter m.contains).all (fun t => (m'.flagsAt t).isExecuted) = seen' at *
      generalize (m.nextStart? a).any (fun next => (m.flagsAt next).isExecuted) = fell at *
      generalize (m.nextStart? a).any (fun next => (m'.flagsAt next).isExecuted) = fell' at *
      cases seen <;> cases seen' <;> cases fell <;> cases fell' <;> simp at hseen hnext ⊢

theorem reported_of_mem_starts (ha : a ∈ m.starts) (hbranch : (m.flagsAt a).isBranch = true)
    (name : String) (base : Address) (targets : TargetOffsets) :
    ((m.uncoveredBranches name base targets).filter (·.start == base + a)).map (·.kind) =
      (m.classify a targets[a]?).reported := by
  obtain ⟨i, hi, hstart, rfl⟩ := mem_starts.1 ha
  rw [flagsAt_address hi] at hbranch
  exact uncoveredBranches_at hi hstart hbranch name base targets

theorem uncoveredBranches_eq_iff (h : m.Folds m') (name : String) (base : Address)
    (targets : TargetOffsets) :
    m'.uncoveredBranches name base targets = m.uncoveredBranches name base targets ↔
      ∀ a ∈ m.starts, (m.flagsAt a).isBranch = true → ¬ m.Misread m' a targets[a]? := by
  simp only [← classify_eq_iff h]
  have hbranches : ∀ a, (m'.flagsAt a).isBranch = (m.flagsAt a).isBranch :=
    h.meets (by decide)
  constructor
  · intro heq a ha hbranch
    apply BranchClass.reported_injective
    rw [← reported_of_mem_starts ha hbranch name base, ← heq]
    exact (reported_of_mem_starts (h.starts_eq ▸ ha) ((hbranches a).trans hbranch) name base
      targets).symm
  · intro hclasses
    simp only [uncoveredBranches, h.starts_eq, hbranches, h.instructionEnd_eq]
    apply List.filterMap_congr
    intro a ha
    obtain ⟨hstart, hbranch⟩ := List.mem_filter.1 ha
    rw [hclasses a hstart hbranch]

end CoverageMap

end TraceCoverage

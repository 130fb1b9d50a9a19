import TraceCoverage.Proofs.Symbol.Relative
import Mathlib.Data.List.Nodup

/-!
# What is reported of a branch

Each branch has one verdict, and one entry among the uncovered branches unless both of its
directions were seen.
-/

namespace TraceCoverage

/-- What the report shows of a branch with a verdict. Nothing is left to say of one that went both
ways. -/
def BranchClass.reported : BranchClass → List RangeKind
  | executedBoth => []
  | verdict => [.branch verdict]

def Symbol.reportedAt (s : Symbol) (i : Nat) : List RangeKind :=
  (s.branches.filter (·.start == s.base + UInt32.ofNat i)).map (·.kind)

theorem filter_filterMap_of_nodup {α β : Type} {f : α → Option β} {p : β → Bool} {l : List α}
    {a : α} (hl : l.Nodup) (ha : a ∈ l) (hp : ∀ b ∈ l, ∀ y, f b = some y → (p y = true ↔ b = a)) :
    (l.filterMap f).filter p = (f a).toList := by
  have hnone : ∀ l : List α, (∀ b ∈ l, ∀ y, f b = some y → ¬ p y = true) →
      (l.filterMap f).filter p = [] := by
    intro l h
    rw [List.filter_eq_nil_iff]
    intro y hy
    obtain ⟨b, hb, hby⟩ := List.mem_filterMap.1 hy
    exact h b hb y hby
  obtain ⟨before, after, rfl⟩ := List.append_of_mem ha
  have hfresh : ∀ b ∈ before ++ after, b ≠ a := by
    intro b hb heq
    exact (List.nodup_middle.1 hl).notMem (heq ▸ hb)
  have hbefore := hnone before fun b hb y hy hpy =>
    hfresh b (by simp [hb]) ((hp b (by simp [hb]) y hy).1 hpy)
  have hafter := hnone after fun b hb y hy hpy =>
    hfresh b (by simp [hb]) ((hp b (by simp [hb]) y hy).1 hpy)
  rw [List.filterMap_append, List.filter_append, hbefore, List.nil_append, List.filterMap_cons]
  cases hfa : f a with
  | none => exact hafter
  | some y =>
    rw [List.filter_cons_of_pos ((hp a (by simp) y hfa).2 rfl), hafter]
    rfl

namespace CoverageMap

variable {m : CoverageMap} {i : Nat}

theorem nodup_starts (m : CoverageMap) : m.starts.Nodup :=
  m.starts_pairwise.imp fun hlt => UInt32.ne_of_lt hlt

theorem uncoveredBranches_at (hi : i < m.size) (hstart : m.isStartAt i = true)
    (hbranch : (m.byte i).isBranch = true) (name : String) (base : Address)
    (targets : TargetOffsets) :
    ((m.uncoveredBranches name base targets).filter (·.start == base + m.address i)).map (·.kind) =
      (m.classify (m.address i) targets[m.address i]?).reported := by
  have hmem : m.address i ∈ m.starts.filter fun a => (m.flagsAt a).isBranch := by
    refine List.mem_filter.2 ⟨mem_starts.2 ⟨i, hi, hstart, rfl⟩, ?_⟩
    rw [flagsAt_address hi]
    exact hbranch
  rw [uncoveredBranches, filter_filterMap_of_nodup (m.nodup_starts.filter _) hmem]
  · cases m.classify (m.address i) targets[m.address i]? <;> rfl
  · intro a _ r hr
    have hr' : r.start = base + a := by
      cases hverdict : m.classify a targets[a]? <;> simp [hverdict] at hr <;> simp [← hr]
    rw [hr', beq_iff_eq]
    constructor
    · intro heq
      rw [← Address.add_sub_base base a, heq, Address.add_sub_base]
    · rintro rfl
      rfl

theorem classify_of_hasDirection {a : Address} (hran : (m.flagsAt a).isExecuted = true)
    (hdirection : (m.flagsAt a).hasDirection = true) (target : Option Address) :
    m.classify a target =
      if (m.flagsAt a).isTaken then
        if (m.flagsAt a).isNotTaken then .executedBoth else .alwaysTaken
      else .neverTaken := by
  rw [classify, pathsSeen, if_pos hran, if_pos hdirection]
  cases (m.flagsAt a).isTaken <;> cases (m.flagsAt a).isNotTaken <;> rfl

theorem classify_of_directions (hi : i < m.size) (hran : (m.byte i).isExecuted = true)
    (hdirection : (m.byte i).hasDirection = true) (target : Option Address) :
    m.classify (m.address i) target =
      if (m.byte i).isTaken then
        if (m.byte i).isNotTaken then .executedBoth else .alwaysTaken
      else .neverTaken := by
  rw [← flagsAt_address hi] at hran hdirection ⊢
  exact classify_of_hasDirection hran hdirection target

end CoverageMap

end TraceCoverage

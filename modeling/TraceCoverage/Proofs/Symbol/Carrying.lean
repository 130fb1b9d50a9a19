import TraceCoverage.Proofs.Symbol.Layout

/-!
# What the padding fold executes

The fold carries execution over from one instruction to the next as long as these are padding. What
it leaves executed is therefore the closure of what ran before: it takes nothing away, more execution
leaves more, and folding again, also with other maps merged between, changes nothing.
-/

namespace TraceCoverage.CoverageMap

variable {m m' o : CoverageMap} {i n : Nat}

/-! ## The fold in closed form -/

/-- Execution carries over to an offset: the last instruction that starts before it ran, or is
padding that execution carries over to. -/
def carries (m : CoverageMap) : Nat → Bool
  | 0 => false
  | n + 1 =>
    if m.isStartAt n then (m.byte n).isExecuted || (m.byte n).isNop && m.carries n
    else m.carries n

def folds (m : CoverageMap) (i : Nat) : Bool :=
  m.isStartAt i && (m.byte i).isNop && !(m.byte i).isExecuted && m.carries i

theorem carries_succ (hstart : m.isStartAt n = true) :
    m.carries (n + 1) = ((m.byte n).isExecuted || (m.byte n).isNop && m.carries n) := by
  rw [carries, if_pos hstart]

theorem carries_succ_of_not_start (hstart : ¬ m.isStartAt n = true) :
    m.carries (n + 1) = m.carries n := by
  rw [carries, if_neg hstart]

open Classical in
noncomputable def foldedBelow (m : CoverageMap) (n : Nat) : CoverageMap :=
  m.mark fun k => if ∃ i < n, m.folds i = true ∧ m.Spans i k then Flags.executed else Flags.empty

theorem inert_foldedBelow (m : CoverageMap) (n : Nat) :
    ∃ g, (∀ k, (g k).isStart = false) ∧ m.foldedBelow n = m.mark g := by
  refine ⟨_, fun k => ?_, rfl⟩
  split <;> decide

theorem flagsAt_foldedBelow (hn : n < m.size) (hstart : m.isStartAt n = true) :
    (m.foldedBelow n).flagsAt (m.address n) = m.byte n := by
  have hnone : ¬ ∃ i < n, m.folds i = true ∧ m.Spans i n := by
    rintro ⟨i, hi, _, hspans⟩
    exact absurd hstart (by rw [hspans.2.2 n hi (Nat.le_refl n)]; simp)
  rw [foldedBelow, flagsAt_mark _ (offset?_address hn), if_neg hnone, Flags.union_empty,
    flagsAt_address hn]

open Classical in
theorem foldedBelow_succ_of_folds (hn : n < m.size) (hfolds : m.folds n = true) :
    m.foldedBelow (n + 1) = (m.foldedBelow n).markExecuted (m.address n) := by
  obtain ⟨g, hg, heq⟩ := m.inert_foldedBelow n
  rw [markExecuted_eq_mark, heq]
  simp only [offset?_mark, offset?_address hn, spans_mark hg, Option.some.injEq, exists_eq_left']
  rw [← heq, foldedBelow, foldedBelow, mark_mark]
  congr 1
  funext k
  simp only [Nat.exists_lt_succ_right, hfolds, true_and]
  by_cases hbelow : ∃ i < n, m.folds i = true ∧ m.Spans i k <;> by_cases hspans : m.Spans n k <;>
    simp [hbelow, hspans]

open Classical in
theorem foldedBelow_succ_of_not_folds (hfolds : ¬ m.folds n = true) :
    m.foldedBelow (n + 1) = m.foldedBelow n := by
  simp only [foldedBelow, Nat.exists_lt_succ_right, hfolds, Bool.false_eq_true, false_and, or_false]

/-- Along the starts below an offset, the fold marks those that it folds, and holds whether
execution carries over to the offset. -/
theorem foldl_fillStep_below (hn : n ≤ m.size) :
    (((List.range n).filter m.isStartAt).map m.address).foldl fillStep (m, false) =
      (m.foldedBelow n, m.carries n) := by
  induction n with
  | zero => simp [foldedBelow, carries]
  | succ n ih =>
    rw [List.range_succ, List.filter_append, List.map_append, List.foldl_append, ih (by omega)]
    by_cases hstart : m.isStartAt n = true
    · rw [List.filter_cons_of_pos hstart, List.filter_nil, List.map_singleton, List.foldl_cons,
        List.foldl_nil, fillStep]
      simp only [flagsAt_foldedBelow hn hstart]
      rw [carries_succ hstart]
      by_cases hfolds : m.folds n = true
      · have hcarries : m.carries n = true := by simp_all [folds]
        rw [foldedBelow_succ_of_folds hn hfolds, if_pos (by simp_all [folds])]
        simp_all [folds]
      · rw [foldedBelow_succ_of_not_folds hfolds, if_neg (by simp_all [folds])]
        congr 1
        cases hran : (m.byte n).isExecuted <;> simp_all [folds]
    · have hfolds : ¬ m.folds n = true := by simp [folds, hstart]
      rw [List.filter_cons_of_neg hstart, foldedBelow_succ_of_not_folds hfolds,
        carries_succ_of_not_start hstart]
      rfl

theorem fillPadding_eq_foldedBelow (m : CoverageMap) : m.fillPadding = m.foldedBelow m.size :=
  congrArg Prod.fst (foldl_fillStep_below (Nat.le_refl m.size))

theorem isExecuted_fillPadding (hstart : m.isStartAt i = true) :
    (m.fillPadding.byte i).isExecuted = m.carries (i + 1) := by
  have hi := lt_size_of_isStartAt hstart
  have hfolds : (∃ j < m.size, m.folds j = true ∧ m.Spans j i) ↔ m.folds i = true := by
    constructor
    · rintro ⟨j, _, hj, hspans⟩
      have hjstart : m.isStartAt j = true := by simp_all [folds]
      rwa [← hspans.unique (spans_self hi) hjstart hstart]
    · exact fun hfolds => ⟨i, hi, hfolds, spans_self hi⟩
  rw [fillPadding_eq_foldedBelow, foldedBelow, byte_mark _ hi, Flags.isExecuted_union,
    carries_succ hstart]
  simp only [hfolds]
  rw [folds, hstart]
  cases (m.byte i).isExecuted <;> cases (m.byte i).isNop <;> cases m.carries i <;> rfl

/-! ## Closure -/

theorem carries_mono (h : m.SameStarts m')
    (hnop : ∀ i, m.isStartAt i = true → (m.byte i).isNop = true → (m'.byte i).isNop = true)
    (hran : ∀ i, m.isStartAt i = true → (m.byte i).isExecuted = true →
      (m'.byte i).isExecuted = true)
    (hcarries : m.carries n = true) : m'.carries n = true := by
  induction n with
  | zero => exact hcarries
  | succ n ih =>
    by_cases hstart : m.isStartAt n = true
    · rw [carries_succ hstart, Bool.or_eq_true, Bool.and_eq_true] at hcarries
      rw [carries_succ (h.starts n ▸ hstart), Bool.or_eq_true, Bool.and_eq_true]
      exact hcarries.imp (hran n hstart) (And.imp (hnop n hstart) ih)
    · rw [carries_succ_of_not_start hstart] at hcarries
      rw [carries_succ_of_not_start (h.starts n ▸ hstart)]
      exact ih hcarries

theorem carries_fillPadding (m : CoverageMap) (n : Nat) : m.fillPadding.carries n = m.carries n := by
  induction n with
  | zero => rfl
  | succ n ih =>
    have hsame := (folds_fillPadding m).sameStarts
    by_cases hstart : m.isStartAt n = true
    · have hnop : (m.fillPadding.byte n).isNop = (m.byte n).isNop :=
        meets_byte_fillPadding (by decide) n
      rw [carries_succ (hsame.starts n ▸ hstart), isExecuted_fillPadding hstart, hnop, ih,
        carries_succ hstart, Bool.or_assoc, Bool.or_self]
    · rw [carries_succ_of_not_start (hsame.starts n ▸ hstart), ih,
        carries_succ_of_not_start hstart]

/-- The other map is this one with some more bytes executed, and a fold makes up for the
difference: execution carries over as far in both. -/
structure Refolds (m m' : CoverageMap) : Prop where
  folds : m.Folds m'
  carries : ∀ n, m'.carries n = m.carries n

theorem Refolds.refl (m : CoverageMap) : m.Refolds m := ⟨.refl m, fun _ => rfl⟩

theorem Refolds.fillPadding (h : m.Refolds m') : m.Refolds m'.fillPadding :=
  ⟨h.folds.fillPadding, fun n => (carries_fillPadding m' n).trans (h.carries n)⟩

theorem WithinLayout.carries_merge (ho : o.WithinLayout m) (hcarries : m.carries n = true) :
    (m.merge o).carries n = true := by
  refine carries_mono ho.sameStarts_merge (fun i hstart hnop => ?_) (fun i hstart hran => ?_)
    hcarries
  · rw [byte_merge (lt_size_of_isStartAt hstart), Flags.isNop_union, hnop, Bool.true_or]
  · rw [byte_merge (lt_size_of_isStartAt hstart), Flags.isExecuted_union, hran, Bool.true_or]

theorem Refolds.carries_of_ran (h : m.Refolds m') (hstart : m.isStartAt n = true)
    (hran : (m'.byte n).isExecuted = true) :
    (m.byte n).isExecuted = true ∨ (m.byte n).isNop = true ∧ m.carries n = true := by
  have hstart' : m'.isStartAt n = true := h.folds.sameStarts.starts n ▸ hstart
  have hbehind : m'.carries (n + 1) = true := by rw [carries_succ hstart', hran, Bool.true_or]
  rwa [h.carries, carries_succ hstart, Bool.or_eq_true, Bool.and_eq_true] at hbehind

/-- What an early fold executes, a later one would execute as well. -/
theorem Refolds.merge (h : m.Refolds m') (ho : o.WithinLayout m) :
    (m.merge o).Refolds (m'.merge o) := by
  refine ⟨h.folds.merge o, fun n => ?_⟩
  have hsame := h.folds.sameStarts
  have ho' := ho.of_folds h.folds
  induction n with
  | zero => rfl
  | succ n ih =>
    by_cases hstart : m.isStartAt n = true
    · have hn := lt_size_of_isStartAt hstart
      have hn' : n < m'.size := hsame.size ▸ hn
      have hstart' : m'.isStartAt n = true := hsame.starts n ▸ hstart
      have hnop : (m'.byte n).isNop = (m.byte n).isNop := h.folds.meets_byte (by decide) n
      rw [carries_succ ((ho'.isStartAt_merge n).trans hstart'),
        carries_succ ((ho.isStartAt_merge n).trans hstart), ih, ho'.isNop_merge hn',
        ho.isNop_merge hn, hnop, byte_merge hn', byte_merge hn, Flags.isExecuted_union,
        Flags.isExecuted_union, Bool.eq_iff_iff]
      simp only [Bool.or_eq_true, Bool.and_eq_true]
      constructor
      · rintro ((hran | hother) | hcarried)
        -- What only the early fold executed is padding that execution is carried to, and after the
        -- merge it still is.
        · rcases h.carries_of_ran hstart hran with hran | ⟨hpadding, hcarries⟩
          · exact .inl (.inl hran)
          · exact .inr ⟨hpadding, ho.carries_merge hcarries⟩
        · exact .inl (.inr hother)
        · exact .inr hcarried
      · rintro ((hran | hother) | hcarried)
        · exact .inl (.inl (h.folds.isExecuted_byte hran))
        · exact .inl (.inr hother)
        · exact .inr hcarried
    · have hstart' : ¬ m'.isStartAt n = true := hsame.starts n ▸ hstart
      rw [carries_succ_of_not_start (by rwa [ho'.isStartAt_merge]),
        carries_succ_of_not_start (by rwa [ho.isStartAt_merge]), ih]

end TraceCoverage.CoverageMap

import TraceCoverage.Proofs.Symbol.Padding
import TraceCoverage.Proofs.Symbol.Runs
import TraceCoverage.Proofs.Symbol.Unified

/-!
# Whole instructions run

Execution is marked byte by byte and runs are made of instruction starts. They fit because marks
always reach to the end of an instruction, and reach back to its start if a trace names nothing but
starts. Merging and folding padding keep both.
-/

namespace TraceCoverage.CoverageMap

variable {m o : CoverageMap} {maps : List CoverageMap} {a : Address} {n i k : Nat}

/-- What ran, ran to the end of its instruction. -/
def Finishes (m : CoverageMap) : Prop :=
  ∀ i k, m.Spans i k → (m.byte i).isExecuted = true → (m.byte k).isExecuted = true

/-- What ran, ran from the start of its instruction. -/
def Begins (m : CoverageMap) : Prop :=
  ∀ i k, m.isStartAt i = true → m.Spans i k → (m.byte k).isExecuted = true →
    (m.byte i).isExecuted = true

/-- Maps of one size in which instructions start at the same offsets. -/
structure SameStarts (m o : CoverageMap) : Prop where
  size : m.size = o.size
  inside : ∀ i < m.size, m.isStartAt i = o.isStartAt i

instance (m o : CoverageMap) : Decidable (m.SameStarts o) :=
  decidable_of_iff (m.size = o.size ∧ ∀ i < m.size, m.isStartAt i = o.isStartAt i)
    ⟨fun ⟨hsize, hinside⟩ => ⟨hsize, hinside⟩, fun h => ⟨h.size, h.inside⟩⟩

theorem SameStarts.starts (h : m.SameStarts o) (i : Nat) : m.isStartAt i = o.isStartAt i := by
  rcases Nat.lt_or_ge i m.size with hi | hi
  · exact h.inside i hi
  · rw [isStartAt_eq, isStartAt_eq, byte_of_size_le hi, byte_of_size_le (h.size ▸ hi)]

theorem SameStarts.spans_iff (h : m.SameStarts o) : m.Spans i k ↔ o.Spans i k := by
  simp only [Spans, h.size, h.starts]

theorem SameStarts.symm (h : m.SameStarts o) : o.SameStarts m :=
  ⟨h.size.symm, fun i _ => (h.starts i).symm⟩

theorem SameStarts.trans {o' : CoverageMap} (h : m.SameStarts o) (h' : o.SameStarts o') :
    m.SameStarts o' :=
  ⟨h.size.trans h'.size, fun i _ => (h.starts i).trans (h'.starts i)⟩

theorem sameStarts_mark {g : Nat → Flags} (hg : ∀ i, (g i).isStart = false) :
    m.SameStarts (m.mark g) :=
  ⟨(size_mark g).symm, fun _ _ => (isStartAt_mark hg).symm⟩

/-! ## Marks of one instruction -/

theorem isExecuted_markExecuted :
    ((m.markExecuted a).byte k).isExecuted = true ↔
      (m.byte k).isExecuted = true ∨ ∃ i, m.offset? a = some i ∧ m.Spans i k := by
  rw [byte_markExecuted]
  split
  next h =>
    rw [Flags.isExecuted_union, show Flags.executed.isExecuted = true by decide, Bool.or_true]
    simp [h]
  next h => simp [h]

theorem sameStarts_markExecuted (m : CoverageMap) (a : Address) :
    m.SameStarts (m.markExecuted a) := by
  rw [markExecuted_eq_mark]
  apply sameStarts_mark
  intro i
  split <;> decide

theorem Finishes.markExecuted (h : m.Finishes) (a : Address) : (m.markExecuted a).Finishes := by
  intro i k hspans hran
  rw [← (m.sameStarts_markExecuted a).spans_iff] at hspans
  rw [isExecuted_markExecuted] at hran ⊢
  rcases hran with hran | ⟨j, hj, hji⟩
  · exact .inl (h i k hspans hran)
  · exact .inr ⟨j, hj, hji.trans hspans⟩

theorem Begins.markExecuted (h : m.Begins) {j : Nat} (hj : m.offset? a = some j)
    (hstart : m.isStartAt j = true) : (m.markExecuted a).Begins := by
  intro i k hi hspans hran
  rw [← (m.sameStarts_markExecuted a).starts] at hi
  rw [← (m.sameStarts_markExecuted a).spans_iff] at hspans
  rw [isExecuted_markExecuted] at hran ⊢
  rcases hran with hran | ⟨j', hj', hjk⟩
  · exact .inl (h i k hi hspans hran)
  · obtain rfl := Option.some.inj (hj.symm.trans hj')
    obtain rfl := hspans.unique hjk hi hstart
    exact .inr ⟨i, hj, spans_self (Nat.lt_of_le_of_lt hspans.1 hspans.2.1)⟩

/-! ## Padding -/

theorem Finishes.fillPadding (h : m.Finishes) : m.fillPadding.Finishes :=
  fillPadding_induction (P := Finishes) h fun _ ho a _ => ho.markExecuted a

theorem Begins.fillPadding (h : m.Begins) : m.fillPadding.Begins := by
  suffices m.fillPadding.low = m.low ∧ m.SameStarts m.fillPadding ∧ m.fillPadding.Begins from
    this.2.2
  refine fillPadding_induction (P := fun o => o.low = m.low ∧ m.SameStarts o ∧ o.Begins)
    ⟨rfl, ⟨rfl, fun _ _ => rfl⟩, h⟩ ?_
  rintro o ⟨hlow, hsame, ho⟩ a ha
  obtain ⟨j, hj, hstart, rfl⟩ := mem_starts.1 ha
  have hoffset : o.offset? (m.address j) = some j := by
    rw [offset?_eq_some_iff, ← hsame.size, hlow]
    exact ⟨hj, toNat_address hj⟩
  have hmarked := o.sameStarts_markExecuted (m.address j)
  exact ⟨(low_markExecuted _).trans hlow, hsame.trans hmarked,
    ho.markExecuted hoffset (hsame.starts j ▸ hstart)⟩

/-! ## Merging -/

theorem Unifies.sameStarts (hm : Unifies maps n m) (hsize : ∀ o ∈ maps, o.size = n)
    (hsame : ∀ o ∈ maps, ∀ o' ∈ maps, o.SameStarts o') (ho : o ∈ maps) : o.SameStarts m where
  size := (hsize o ho).trans hm.size.symm
  inside i hi := by
    rw [Bool.eq_iff_iff, isStartAt_eq m, hm.byte i (hsize o ho ▸ hi),
      bytes_iff Flags.isStart_union (by decide)]
    constructor
    · exact fun h => ⟨o, ho, isStartAt_eq o i ▸ h⟩
    · rintro ⟨o', ho', h⟩
      rw [(hsame o ho o' ho').starts, isStartAt_eq]
      exact h

theorem Unifies.isExecuted_iff (hm : Unifies maps n m) (hi : i < m.size) :
    (m.byte i).isExecuted = true ↔ ∃ o ∈ maps, (o.byte i).isExecuted = true := by
  rw [hm.byte i (hm.size ▸ hi), bytes_iff Flags.isExecuted_union (by decide)]

section

variable (hm : Unifies maps n m) (hsame : ∀ o ∈ maps, o.SameStarts m)
include hm hsame

theorem Unifies.finishes (h : ∀ o ∈ maps, o.Finishes) : m.Finishes := by
  intro i k hspans hran
  have hk := hspans.2.1
  rw [hm.isExecuted_iff (Nat.lt_of_le_of_lt hspans.1 hk)] at hran
  rw [hm.isExecuted_iff hk]
  obtain ⟨o, ho, hran⟩ := hran
  exact ⟨o, ho, h o ho i k ((hsame o ho).spans_iff.2 hspans) hran⟩

theorem Unifies.begins (h : ∀ o ∈ maps, o.Begins) : m.Begins := by
  intro i k hi hspans hran
  have hk := hspans.2.1
  rw [hm.isExecuted_iff hk] at hran
  rw [hm.isExecuted_iff (Nat.lt_of_le_of_lt hspans.1 hk)]
  obtain ⟨o, ho, hran⟩ := hran
  exact ⟨o, ho, h o ho i k ((hsame o ho).starts i ▸ hi) ((hsame o ho).spans_iff.2 hspans) hran⟩

end

/-! ## Missed bytes -/

def reaches (m : CoverageMap) (i : Nat) : Bool := (m.startFrom? 0).any (· ≤ i)

theorem reaches_iff (hi : i < m.size) : m.reaches i = true ↔ ∃ j ≤ i, m.isStartAt j = true := by
  rw [reaches]
  cases h : m.startFrom? 0 with
  | none =>
    rw [startFrom?_eq_none_iff] at h
    simp only [Option.any_none, Bool.false_eq_true, false_iff, not_exists, not_and]
    exact fun j hj => by rw [h j (Nat.zero_le j) (by omega)]; simp
  | some first =>
    obtain ⟨_, _, hfirst, hno⟩ := startFrom?_eq_some_iff.1 h
    simp only [Option.any_some, decide_eq_true_eq]
    constructor
    · exact fun hle => ⟨first, hle, hfirst⟩
    · rintro ⟨j, hj, hstart⟩
      by_contra hlt
      exact absurd hstart (by rw [hno j (Nat.zero_le j) (by omega)]; simp)

theorem Finishes.misses (h : m.Finishes) (hi : i < m.size) (hreaches : m.reaches i = true)
    (hran : (m.byte i).isExecuted = false) : m.misses i = true := by
  obtain ⟨j, hji, hj⟩ := (reaches_iff hi).1 hreaches
  obtain ⟨first, hstart, hspans⟩ := exists_start_spans hj hji hi
  rw [misses_of_spans hstart hspans, Bool.not_eq_true', Bool.eq_false_iff]
  intro hfirst
  rw [h first i hspans hfirst] at hran
  exact absurd hran (by simp)

theorem Begins.misses_eq (h' : m.Begins) (h : m.Finishes) (hi : i < m.size) :
    m.misses i = (m.reaches i && !(m.byte i).isExecuted) := by
  cases hreaches : m.reaches i with
  | false =>
    refine misses_of_no_start hi fun j hj => Bool.eq_false_iff.2 fun hstart => ?_
    rw [(reaches_iff hi).2 ⟨j, hj, hstart⟩] at hreaches
    cases hreaches
  | true =>
    cases hran : (m.byte i).isExecuted with
    | false => exact h.misses hi hreaches hran
    | true =>
      obtain ⟨j, hji, hj⟩ := (reaches_iff hi).1 hreaches
      obtain ⟨first, hstart, hspans⟩ := exists_start_spans hj hji hi
      rw [misses_of_spans hstart hspans, h' first i hstart hspans hran]
      rfl

end TraceCoverage.CoverageMap

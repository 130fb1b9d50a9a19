import TraceCoverage.Proofs.Symbol.Growth

/-!
# Where the bytes of a map go

Each byte belongs to the instruction that starts last before it, or lies before all of them. So the
bytes that are missed, the bytes of executed instructions and the bytes before the first instruction
make up the map.
-/

namespace TraceCoverage.CoverageMap

variable {m : CoverageMap} {i j : Nat}

/-- Where the instruction starts that the byte belongs to. -/
def owner? (m : CoverageMap) : Nat → Option Nat
  | 0 => if m.isStartAt 0 then some 0 else none
  | i + 1 => if m.isStartAt (i + 1) then some (i + 1) else m.owner? i

def ownerRan (m : CoverageMap) (i : Nat) : Bool := (m.owner? i).any fun j => (m.byte j).isExecuted

def executedBytes (m : CoverageMap) : Nat := (List.range m.size).countP m.ownerRan

def leadingBytes (m : CoverageMap) : Nat := (m.startFrom? 0).getD m.size

/-! ## Owners -/

theorem spans_of_owner? (hi : i < m.size) (h : m.owner? i = some j) :
    m.isStartAt j = true ∧ m.Spans j i := by
  induction i with
  | zero =>
    rw [owner?, Option.ite_none_right_eq_some] at h
    obtain ⟨hstart, rfl⟩ := h.imp_right Option.some.inj
    exact ⟨hstart, spans_self hi⟩
  | succ i ih =>
    rw [owner?] at h
    split at h
    next hstart =>
      obtain rfl := Option.some.inj h
      exact ⟨hstart, spans_self hi⟩
    next hno =>
      obtain ⟨hstart, hji, _, hbetween⟩ := ih (Nat.lt_of_succ_lt hi) h
      refine ⟨hstart, Nat.le_succ_of_le hji, hi, fun k hjk hki => ?_⟩
      rcases Nat.le_succ_iff.1 hki with hle | rfl
      · exact hbetween k hjk hle
      · exact Bool.eq_false_iff.2 hno

theorem owner?_eq_none_iff : m.owner? i = none ↔ ∀ j ≤ i, m.isStartAt j = false := by
  induction i with
  | zero => simp [owner?]
  | succ i ih =>
    rw [owner?]
    split
    next hstart => simpa using ⟨i + 1, Nat.le_refl _, hstart⟩
    next hno =>
      rw [ih]
      constructor
      · intro h j hj
        rcases Nat.le_succ_iff.1 hj with hle | rfl
        · exact h j hle
        · exact Bool.eq_false_iff.2 hno
      · exact fun h j hj => h j (Nat.le_succ_of_le hj)

theorem misses_eq_owner? (hi : i < m.size) :
    m.misses i = (m.owner? i).any fun j => !(m.byte j).isExecuted := by
  cases howner : m.owner? i with
  | none => exact misses_of_no_start hi (owner?_eq_none_iff.1 howner)
  | some j =>
    obtain ⟨hstart, hspans⟩ := spans_of_owner? hi howner
    exact misses_of_spans hstart hspans

theorem isNone_owner? (hi : i < m.size) : (m.owner? i).isNone = !m.reaches i := by
  rw [Bool.eq_iff_iff, Option.isNone_iff_eq_none, owner?_eq_none_iff, Bool.not_eq_true',
    Bool.eq_false_iff, Ne, reaches_iff hi]
  simp

/-! ## Adding up the bytes -/

theorem countP_range_lt {n size : Nat} (h : n ≤ size) :
    (List.range size).countP (fun i => decide (i < n)) = n := by
  obtain ⟨rest, rfl⟩ := Nat.exists_eq_add_of_le h
  rw [List.range_add, List.countP_append, List.countP_map, List.countP_eq_length.2 (by simp),
    List.countP_eq_zero.2 (by simp), List.length_range, Nat.add_zero]

theorem countP_not_reaches :
    (List.range m.size).countP (fun i => !m.reaches i) = m.leadingBytes := by
  rw [leadingBytes]
  cases hfirst : m.startFrom? 0 with
  | none =>
    have hall : ∀ i ∈ List.range m.size, (!m.reaches i) = true := by simp [reaches, hfirst]
    rw [Option.getD_none, List.countP_eq_length.2 hall, List.length_range]
  | some first =>
    obtain ⟨_, hlt, _⟩ := startFrom?_eq_some_iff.1 hfirst
    rw [Option.getD_some, ← countP_range_lt (Nat.le_of_lt hlt)]
    refine List.countP_congr fun i _ => ?_
    simp [reaches, hfirst]

theorem countP_add_countP_add_countP {α : Type} {p q q' : α → Bool} {l : List α}
    (h : ∀ a ∈ l, (p a).toNat + (q a).toNat + (q' a).toNat = 1) :
    l.countP p + l.countP q + l.countP q' = l.length := by
  induction l with
  | nil => rfl
  | cons a rest ih =>
    obtain ⟨ha, hrest⟩ := List.forall_mem_cons.1 h
    have hsum := ih hrest
    simp only [List.countP_cons, List.length_cons]
    cases hp : p a <;> cases hq : q a <;> cases hq' : q' a <;> simp [hp, hq, hq'] at ha ⊢ <;> omega

/-- Each byte is missed, belongs to an executed instruction or lies before them all. -/
theorem countP_misses_add (m : CoverageMap) :
    (List.range m.size).countP m.misses + m.executedBytes + m.leadingBytes = m.size := by
  rw [executedBytes, ← countP_not_reaches, countP_add_countP_add_countP, List.length_range]
  intro i hi
  rw [List.mem_range] at hi
  rw [misses_eq_owner? hi, ← isNone_owner? hi, ownerRan]
  cases m.owner? i with
  | none => rfl
  | some j => cases hran : (m.byte j).isExecuted <;> simp [hran]

theorem countP_starts_add (m : CoverageMap) :
    m.starts.countP (fun a => !(m.flagsAt a).isExecuted) + m.executedStarts.length =
      m.startCount := by
  rw [executedStarts, ← List.countP_eq_length_filter, startCount_eq, Nat.add_comm,
    List.length_eq_countP_add_countP fun a => (m.flagsAt a).isExecuted]
  simp

end TraceCoverage.CoverageMap

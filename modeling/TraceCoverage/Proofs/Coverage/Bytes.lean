import TraceCoverage.Coverage.Map
import TraceCoverage.Proofs.Coverage.Flags
import Mathlib.Tactic.Common

/-!
# Maps byte by byte

A map seen as the flags of each offset. Every operation has one lemma that says what it does to
the byte at an offset, and addresses are read as numbers that do not wrap.
-/

namespace TraceCoverage

theorem Address.add_sub_base (base a : Address) : base + a - base = a := by
  rw [UInt32.add_comm, UInt32.add_sub_cancel]

theorem Address.base_add_sub (base a : Address) : base + (a - base) = a := by
  rw [UInt32.add_comm, UInt32.sub_add_cancel]

theorem Address.toNat_sub_one {a : Address} (h : a ≠ 0) : (a - 1).toNat = a.toNat - 1 := by
  have hpos : a.toNat ≠ 0 := fun hzero => h (UInt32.toNat_inj.1 hzero)
  have hone : (1 : Address).toNat = 1 := rfl
  rw [UInt32.toNat_sub_of_le _ _ (UInt32.le_iff_toNat_le.2 (by omega)), hone]

theorem Address.toNat_sub_one_of_lt {a b : Address} (h : a < b) :
    (b - 1).toNat = b.toNat - 1 := by
  refine toNat_sub_one ?_
  rintro rfl
  exact UInt32.not_lt_zero h

namespace CoverageMap

variable {m o : CoverageMap} {a b : Address} {i k : Nat}

/-- The flags at an offset; none behind the end. -/
def byte (m : CoverageMap) (i : Nat) : Flags := m.flags[i]?.getD Flags.empty

theorem byte_of_size_le (h : m.size ≤ i) : m.byte i = Flags.empty := by
  have hnone : m.flags[i]? = none := Array.getElem?_eq_none (by simpa [size] using h)
  simp [byte, hnone]

theorem getElem?_flags (h : i < m.size) : m.flags[i]? = some (m.byte i) := by
  have hlt : i < m.flags.size := by simpa [size] using h
  simp [byte, Array.getElem?_eq_getElem hlt]

theorem ext_byte (hlow : m.low = o.low) (hsize : m.size = o.size)
    (hbyte : ∀ i < m.size, m.byte i = o.byte i) : m = o := by
  obtain ⟨low, flags, _, _⟩ := m
  obtain ⟨low', flags', _, _⟩ := o
  simp only [size] at hlow hsize hbyte
  obtain rfl := hlow
  have hflags : flags = flags' := by
    apply Array.ext hsize
    intro i hi hi'
    have := hbyte i hi
    simpa [byte, Array.getElem?_eq_getElem hi, Array.getElem?_eq_getElem hi'] using this
  subst hflags
  rfl

/-! ## Addresses as numbers -/

theorem size_pos (m : CoverageMap) : 0 < m.size := m.nonempty

theorem low_add_size_le (m : CoverageMap) : m.low.toNat + m.size ≤ 0x100000000 := m.fits

theorem toNat_address (h : i < m.size) : (m.address i).toNat = m.low.toNat + i := by
  have := m.low_add_size_le
  have hi : (UInt32.ofNat i).toNat = i := by
    rw [UInt32.toNat_ofNat', Nat.mod_eq_of_lt (by omega)]
  rw [address, UInt32.toNat_add, hi, Nat.mod_eq_of_lt (by omega)]

theorem toNat_high (m : CoverageMap) : m.high.toNat = m.low.toNat + (m.size - 1) := by
  have := m.size_pos
  exact toNat_address (by omega : m.size - 1 < m.size)

theorem contains_iff : m.contains a ↔ m.low.toNat ≤ a.toNat ∧ a.toNat < m.low.toNat + m.size := by
  have := m.size_pos
  simp only [contains, Bool.and_eq_true, decide_eq_true_eq, UInt32.le_iff_toNat_le, toNat_high]
  omega

theorem offset?_eq_some_iff : m.offset? a = some i ↔ i < m.size ∧ a.toNat = m.low.toNat + i := by
  simp only [offset?, Option.ite_none_right_eq_some, Option.some.injEq, contains_iff]
  constructor
  · rintro ⟨⟨hlow, hhigh⟩, rfl⟩
    rw [UInt32.toNat_sub_of_le _ _ (UInt32.le_iff_toNat_le.2 hlow)]
    omega
  · rintro ⟨hi, ha⟩
    refine ⟨by omega, ?_⟩
    rw [UInt32.toNat_sub_of_le _ _ (UInt32.le_iff_toNat_le.2 (by omega))]
    omega

theorem offset?_eq_none_iff : m.offset? a = none ↔ ¬ m.contains a := by
  simp [offset?]

theorem offset?_address (h : i < m.size) : m.offset? (m.address i) = some i :=
  offset?_eq_some_iff.2 ⟨h, toNat_address h⟩

theorem contains_address (h : i < m.size) : m.contains (m.address i) := by
  rw [contains_iff, toNat_address h]
  omega

theorem eq_address_of_offset? (h : m.offset? a = some i) : a = m.address i := by
  obtain ⟨hi, ha⟩ := offset?_eq_some_iff.1 h
  rw [← UInt32.toNat_inj, ha, toNat_address hi]

theorem exists_offset? (h : m.contains a = true) : ∃ k, m.offset? a = some k := by
  rw [← Option.isSome_iff_exists, Option.isSome_iff_ne_none, Ne, offset?_eq_none_iff]
  simpa using h

theorem flagsAt_of_not_contains (h : ¬ m.contains a = true) : m.flagsAt a = Flags.empty := by
  unfold flagsAt
  rw [offset?_eq_none_iff.2 h]

theorem flagsAt_of_offset? (h : m.offset? a = some i) : m.flagsAt a = m.byte i := by
  simp [flagsAt, h, byte]

theorem flagsAt_address (h : i < m.size) : m.flagsAt (m.address i) = m.byte i :=
  flagsAt_of_offset? (offset?_address h)

theorem isStartAt_eq (m : CoverageMap) (i : Nat) : m.isStartAt i = (m.byte i).isStart := by
  rcases Nat.lt_or_ge i m.size with h | h
  · simp [isStartAt, getElem?_flags h]
  · have hnone : m.flags[i]? = none := Array.getElem?_eq_none (by simpa [size] using h)
    simp only [isStartAt, byte, hnone]
    rfl

/-! ## Changes -/

section mapFlags

variable (f : Array Flags → Array Flags) (h : ∀ flags, (f flags).size = flags.size)

@[simp]
theorem low_mapFlags : (m.mapFlags f h).low = m.low := rfl

@[simp]
theorem size_mapFlags : (m.mapFlags f h).size = m.size := h m.flags

@[simp]
theorem flags_mapFlags : (m.mapFlags f h).flags = f m.flags := rfl

end mapFlags

section set

variable (a : Address) (f : Flags)

@[simp]
theorem low_set : (m.set a f).low = m.low := by
  unfold set; split <;> simp

@[simp]
theorem size_set : (m.set a f).size = m.size := by
  unfold set; split <;> simp

theorem byte_set :
    (m.set a f).byte i = if m.offset? a = some i then (m.byte i).union f else m.byte i := by
  unfold set
  split
  next k hk =>
    have hlt := (offset?_eq_some_iff.1 hk).1
    simp only [byte, flags_mapFlags, Array.getElem?_modify, hk, Option.some.injEq]
    split
    next heq =>
      subst heq
      simp [getElem?_flags hlt]
    next => rfl
  next hk => simp [hk]

end set

theorem getElem?_raise (f : Flags) (i n : Nat) (flags : Array Flags) (k : Nat) :
    (raise f i n flags)[k]? =
      if i ≤ k ∧ k < i + n then flags[k]?.map (·.union f) else flags[k]? := by
  induction n generalizing i flags with
  | zero => rw [if_neg (by omega)]; rfl
  | succ n ih =>
    rw [raise, ih, Array.getElem?_modify]
    by_cases hik : i = k
    · rw [if_neg (by omega), if_pos hik, if_pos (by omega)]
    · rw [if_neg hik]
      split <;> split <;> first | rfl | omega

theorem firstFrom_eq_some_iff {p : Nat → Bool} {i n k : Nat} :
    firstFrom p i n = some k ↔ i ≤ k ∧ k < i + n ∧ p k ∧ ∀ j, i ≤ j → j < k → p j = false := by
  induction n generalizing i with
  | zero =>
    simp only [firstFrom, reduceCtorEq, false_iff]
    omega
  | succ n ih =>
    simp only [firstFrom]
    split
    next hp =>
      constructor
      · rintro ⟨⟩
        exact ⟨Nat.le_refl _, by omega, hp, fun j h1 h2 => by omega⟩
      · rintro ⟨h1, _, _, hmin⟩
        rcases Nat.eq_or_lt_of_le h1 with rfl | hlt
        · rfl
        · exact absurd (hmin i (Nat.le_refl _) hlt) (by simp [hp])
    next hp =>
      rw [ih]
      constructor
      · rintro ⟨h1, h2, h3, hmin⟩
        refine ⟨by omega, by omega, h3, fun j hj hjk => ?_⟩
        rcases Nat.eq_or_lt_of_le hj with rfl | hlt
        · simpa using hp
        · exact hmin j hlt hjk
      · rintro ⟨h1, h2, h3, hmin⟩
        have hne : i ≠ k := by rintro rfl; exact hp h3
        exact ⟨by omega, by omega, h3, fun j hj hjk => hmin j (by omega) hjk⟩

theorem firstFrom_eq_none_iff {p : Nat → Bool} {i n : Nat} :
    firstFrom p i n = none ↔ ∀ j, i ≤ j → j < i + n → p j = false := by
  induction n generalizing i with
  | zero => simp only [firstFrom, true_iff]; intro j; omega
  | succ n ih =>
    simp only [firstFrom]
    split
    next hp =>
      simp only [reduceCtorEq, false_iff]
      exact fun h => absurd (h i (Nat.le_refl _) (by omega)) (by simp [hp])
    next hp =>
      rw [ih]
      constructor
      · intro h j hj hjn
        rcases Nat.eq_or_lt_of_le hj with rfl | hlt
        · simpa using hp
        · exact h j hlt (by omega)
      · exact fun h j hj hjn => h j (by omega) (by omega)

theorem startFrom?_eq_some_iff :
    m.startFrom? i = some k ↔
      i ≤ k ∧ k < m.size ∧ m.isStartAt k ∧ ∀ j, i ≤ j → j < k → m.isStartAt j = false := by
  rw [startFrom?, firstFrom_eq_some_iff]
  constructor
  · rintro ⟨h1, h2, h3, h4⟩
    exact ⟨h1, by simp only [size]; omega, h3, h4⟩
  · rintro ⟨h1, h2, h3, h4⟩
    exact ⟨h1, by simp only [size] at h2; omega, h3, h4⟩

theorem startFrom?_eq_none_iff :
    m.startFrom? i = none ↔ ∀ j, i ≤ j → j < m.size → m.isStartAt j = false := by
  rw [startFrom?, firstFrom_eq_none_iff]
  constructor
  · exact fun h j h1 h2 => h j h1 (by simp only [size] at h2; omega)
  · exact fun h j h1 h2 => h j h1 (by simp only [size]; omega)

/-- Running the byte at offset `i` runs the byte at offset `k`: no instruction starts between. -/
def Spans (m : CoverageMap) (i k : Nat) : Prop :=
  i ≤ k ∧ k < m.size ∧ ∀ j, i < j → j ≤ k → m.isStartAt j = false

theorem lt_stop_iff_spans (hik : i ≤ k) :
    k < (m.startFrom? (i + 1)).getD m.size ↔ m.Spans i k := by
  cases h : m.startFrom? (i + 1) with
  | none =>
    rw [startFrom?_eq_none_iff] at h
    simp only [Option.getD_none, Spans, hik, true_and]
    exact ⟨fun hk => ⟨hk, fun j h1 h2 => h j h1 (by omega)⟩, fun hk => hk.1⟩
  | some s =>
    obtain ⟨h1, h2, h3, h4⟩ := startFrom?_eq_some_iff.1 h
    simp only [Option.getD_some, Spans, hik, true_and]
    constructor
    · exact fun hk => ⟨by omega, fun j hj hjk => h4 j hj (by omega)⟩
    · rintro ⟨_, hno⟩
      by_contra hsk
      exact absurd (hno s (by omega) (by omega)) (by simp [h3])

theorem spans_self (h : i < m.size) : m.Spans i i :=
  ⟨Nat.le_refl i, h, fun j _ _ => by omega⟩

theorem Spans.trans {j : Nat} (h : m.Spans i j) (h' : m.Spans j k) : m.Spans i k := by
  refine ⟨Nat.le_trans h.1 h'.1, h'.2.1, fun n hin hnk => ?_⟩
  rcases Nat.lt_or_ge j n with hjn | hnj
  · exact h'.2.2 n hjn hnk
  · exact h.2.2 n hin hnj

theorem Spans.unique {j : Nat} (h : m.Spans i k) (h' : m.Spans j k) (hi : m.isStartAt i = true)
    (hj : m.isStartAt j = true) : i = j := by
  rcases Nat.lt_trichotomy i j with hlt | heq | hlt
  · exact absurd hj (by rw [h.2.2 j hlt h'.1]; simp)
  · exact heq
  · exact absurd hi (by rw [h'.2.2 i hlt h.1]; simp)

theorem exists_start_spans {j : Nat} (hj : m.isStartAt j = true) (hjk : j ≤ k) (hk : k < m.size) :
    ∃ i, m.isStartAt i = true ∧ m.Spans i k := by
  induction k with
  | zero =>
    obtain rfl : j = 0 := by omega
    exact ⟨0, hj, spans_self hk⟩
  | succ k ih =>
    by_cases hstart : m.isStartAt (k + 1) = true
    · exact ⟨k + 1, hstart, spans_self hk⟩
    · have hne : j ≠ k + 1 := by
        rintro rfl
        exact hstart hj
      obtain ⟨i, hi, hspans⟩ := ih (by omega) (by omega)
      refine ⟨i, hi, Nat.le_succ_of_le hspans.1, hk, fun n hin hnk => ?_⟩
      rcases Nat.lt_or_eq_of_le hnk with hlt | rfl
      · exact hspans.2.2 n hin (by omega)
      · simpa using hstart

theorem mem_starts : a ∈ m.starts ↔ ∃ i < m.size, m.isStartAt i = true ∧ m.address i = a := by
  simp only [starts, List.mem_map, List.mem_filter, List.mem_range, and_assoc]
  rfl

theorem contains_of_mem_starts (ha : a ∈ m.starts) : m.contains a = true := by
  obtain ⟨i, hi, _, rfl⟩ := mem_starts.1 ha
  exact contains_address hi

theorem address_lt_iff {j : Nat} (hi : i < m.size) (hj : j < m.size) :
    m.address i < m.address j ↔ i < j := by
  rw [UInt32.lt_iff_toNat_lt, toNat_address hi, toNat_address hj]
  omega

theorem starts_pairwise (m : CoverageMap) : m.starts.Pairwise (· < ·) := by
  rw [starts, List.pairwise_map]
  refine (List.pairwise_lt_range.filter _).imp_of_mem fun {i j} hi hj hlt => ?_
  have hi' := List.mem_range.1 (List.mem_filter.1 hi).1
  have hj' := List.mem_range.1 (List.mem_filter.1 hj).1
  exact (address_lt_iff hi' hj').2 hlt

theorem toList_flags (m : CoverageMap) : m.flags.toList = (List.range m.size).map m.byte := by
  apply List.ext_getElem?
  intro i
  rw [Array.getElem?_toList, List.getElem?_map]
  rcases Nat.lt_or_ge i m.size with hi | hi
  · rw [getElem?_flags hi, List.getElem?_range hi, Option.map_some]
  · have hrange : (List.range m.size)[i]? = none := List.getElem?_eq_none (by simpa using hi)
    rw [hrange, Array.getElem?_eq_none hi, Option.map_none]

theorem startCount_eq (m : CoverageMap) : m.startCount = m.starts.length := by
  have hstarts : m.isStartAt = Flags.isStart ∘ m.byte := funext m.isStartAt_eq
  have hsize : m.flags.size = m.size := rfl
  rw [startCount, ← Array.countP_toList, toList_flags, List.countP_map, starts, List.length_map,
    ← List.countP_eq_length_filter, hstarts, hsize]

section markExecuted

variable (a : Address)

@[simp]
theorem low_markExecuted : (m.markExecuted a).low = m.low := by
  unfold markExecuted; split <;> simp

@[simp]
theorem size_markExecuted : (m.markExecuted a).size = m.size := by
  unfold markExecuted; split <;> simp

open Classical in
theorem byte_markExecuted :
    (m.markExecuted a).byte k =
      if ∃ i, m.offset? a = some i ∧ m.Spans i k then (m.byte k).union Flags.executed
      else m.byte k := by
  unfold markExecuted
  split
  next i hi =>
    have hsize : m.flags.size = m.size := rfl
    have hspan : (∃ j, m.offset? a = some j ∧ m.Spans j k) ↔ m.Spans i k := by
      simp [hi]
    simp only [byte, flags_mapFlags, getElem?_raise, hspan, hsize]
    by_cases hs : m.Spans i k
    · have hlt := (lt_stop_iff_spans hs.1).2 hs
      rw [if_pos ⟨hs.1, by omega⟩, if_pos hs, getElem?_flags hs.2.1]
      rfl
    · rw [if_neg, if_neg hs]
      rintro ⟨h1, h2⟩
      exact hs ((lt_stop_iff_spans h1).1 (by omega))
  next hi => simp [hi]

end markExecuted

@[simp]
theorem low_merge : (m.merge o).low = m.low := by simp [merge]

@[simp]
theorem size_merge : (m.merge o).size = m.size := by simp [merge]

theorem byte_merge (h : i < m.size) : (m.merge o).byte i = (m.byte i).union (o.byte i) := by
  have hm : (m.merge o).byte i = (o.flags[i]?).elim (m.byte i) (m.byte i).union := by
    rw [byte, merge, flags_mapFlags, Array.getElem?_mapIdx, getElem?_flags h]
    rfl
  rw [hm]
  rcases Nat.lt_or_ge i o.size with ho | ho
  · rw [getElem?_flags ho, Option.elim_some]
  · have hnone : o.flags[i]? = none := Array.getElem?_eq_none (by simpa [size] using ho)
    rw [hnone, byte_of_size_le ho, Flags.union_empty, Option.elim_none]

/-! ## Adding flags everywhere -/

/-- The map with flags added at every offset. -/
def mark (m : CoverageMap) (g : Nat → Flags) : CoverageMap :=
  m.mapFlags (·.mapIdx fun i f => f.union (g i)) (by simp)

section mark

variable (g g' : Nat → Flags)

@[simp]
theorem low_mark : (m.mark g).low = m.low := by simp [mark]

@[simp]
theorem size_mark : (m.mark g).size = m.size := by simp [mark]

@[simp]
theorem address_mark (i : Nat) : (m.mark g).address i = m.address i := by simp [address]

@[simp]
theorem contains_mark (a : Address) : (m.mark g).contains a = m.contains a := by
  rw [Bool.eq_iff_iff, contains_iff, contains_iff, low_mark, size_mark]

@[simp]
theorem offset?_mark (a : Address) : (m.mark g).offset? a = m.offset? a := by
  simp [offset?]

theorem byte_mark (h : i < m.size) : (m.mark g).byte i = (m.byte i).union (g i) := by
  rw [byte, mark, flags_mapFlags, Array.getElem?_mapIdx, getElem?_flags h]
  rfl

theorem mark_mark : (m.mark g).mark g' = m.mark fun i => (g i).union (g' i) := by
  apply ext_byte (by simp) (by simp)
  intro i hi
  simp only [size_mark] at hi
  rw [byte_mark _ (by simpa using hi), byte_mark _ hi, byte_mark _ hi, Flags.union_assoc]

@[simp]
theorem mark_empty : (m.mark fun _ => Flags.empty) = m := by
  apply ext_byte (by simp) (by simp)
  intro i hi
  rw [byte_mark _ (by simpa using hi), Flags.union_empty]

variable {g}

theorem isStartAt_mark (hg : ∀ i, (g i).isStart = false) : (m.mark g).isStartAt i = m.isStartAt i := by
  rw [isStartAt_eq, isStartAt_eq]
  rcases Nat.lt_or_ge i m.size with h | h
  · rw [byte_mark _ h, Flags.isStart_union, hg, Bool.or_false]
  · rw [byte_of_size_le h, byte_of_size_le (by simpa using h)]

theorem spans_mark (hg : ∀ i, (g i).isStart = false) : (m.mark g).Spans i k ↔ m.Spans i k := by
  simp only [Spans, size_mark, isStartAt_mark hg]

theorem startFrom?_mark (hg : ∀ i, (g i).isStart = false) :
    (m.mark g).startFrom? i = m.startFrom? i := by
  have hp : (m.mark g).isStartAt = m.isStartAt := funext fun _ => isStartAt_mark hg
  have hsize : (m.mark g).flags.size = m.flags.size := size_mark g
  rw [startFrom?, startFrom?, hp, hsize]

theorem nextStart?_mark (hg : ∀ i, (g i).isStart = false) (a : Address) :
    (m.mark g).nextStart? a = m.nextStart? a := by
  have hs : (m.mark g).startFrom? = m.startFrom? := funext fun _ => startFrom?_mark hg
  have ha : (m.mark g).address = m.address := funext fun i => address_mark g i
  simp only [nextStart?, low_mark, offset?_mark, hs, ha]

theorem flagsAt_mark (g : Nat → Flags) (hk : m.offset? a = some k) :
    (m.mark g).flagsAt a = (m.flagsAt a).union (g k) := by
  have hmark : (m.mark g).offset? a = some k := by rw [offset?_mark, hk]
  rw [flagsAt_of_offset? hmark, flagsAt_of_offset? hk, byte_mark g (offset?_eq_some_iff.1 hk).1]

theorem meets_flagsAt_mark {f : Flags} (hg : ∀ i, (g i).meets f = false) (a : Address) :
    ((m.mark g).flagsAt a).meets f = (m.flagsAt a).meets f := by
  by_cases ha : m.contains a = true
  · obtain ⟨k, hk⟩ := exists_offset? ha
    rw [flagsAt_mark g hk, Flags.meets_union, hg, Bool.or_false]
  · rw [flagsAt_of_not_contains ha, flagsAt_of_not_contains (by simpa using ha)]

@[simp]
theorem high_mark (g : Nat → Flags) : (m.mark g).high = m.high := by
  rw [← UInt32.toNat_inj, toNat_high, toNat_high, low_mark, size_mark]

theorem starts_mark (hg : ∀ i, (g i).isStart = false) : (m.mark g).starts = m.starts := by
  have hp : (m.mark g).isStartAt = m.isStartAt := funext fun _ => isStartAt_mark hg
  have hsize : (m.mark g).flags.size = m.flags.size := size_mark g
  have ha : (m.mark g).address = m.address := funext fun i => address_mark g i
  rw [starts, starts, hp, hsize, ha]

end mark

theorem set_eq_mark (a : Address) (f : Flags) :
    m.set a f = m.mark fun i => if m.offset? a = some i then f else Flags.empty := by
  apply ext_byte (by simp) (by simp)
  intro i hi
  rw [byte_set, byte_mark _ (by simpa using hi)]
  split <;> simp

theorem merge_eq_mark (m o : CoverageMap) : m.merge o = m.mark o.byte := by
  apply ext_byte (by simp) (by simp)
  intro i hi
  simp only [size_merge] at hi
  rw [byte_merge hi, byte_mark _ hi]

open Classical in
theorem markExecuted_eq_mark (a : Address) :
    m.markExecuted a = m.mark fun k =>
      if ∃ i, m.offset? a = some i ∧ m.Spans i k then Flags.executed else Flags.empty := by
  apply ext_byte (by simp) (by simp)
  intro i hi
  rw [byte_markExecuted, byte_mark _ (by simpa using hi)]
  split <;> simp

/-! ## Blank maps -/

theorem ofRange_eq_ok {low high : Address} (h : ofRange low high = .ok m) :
    low ≤ high ∧ m.low = low ∧ m.size = high.toNat - low.toNat + 1 ∧
      ∀ i, m.byte i = Flags.empty := by
  unfold ofRange at h
  split at h
  next hle =>
    have hm := Except.ok.inj h
    subst hm
    refine ⟨hle, rfl, ?_, fun i => ?_⟩
    · simp only [size, Array.size_replicate, UInt32.toNat_sub_of_le _ _ hle]
    · simp only [byte, Array.getElem?_replicate]
      split <;> rfl
  next hle => cases h

theorem ofRange_ok {low high : Address} (h : low ≤ high) : ∃ m, ofRange low high = .ok m := by
  exact ⟨_, dif_pos h⟩

end CoverageMap

end TraceCoverage

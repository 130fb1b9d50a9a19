import TraceCoverage.Proofs.Coverage.Bytes
import Mathlib.Logic.Function.Iterate

/-!
# Instruction starts

The first start behind an address, the list of all starts, the count of those between two addresses
and the way from one start to the next go through the flags with offsets of their own. They agree
for every address, inside a map or not, and for every map that can be made.
-/

namespace TraceCoverage

/-- A change to a map that its owner hands out. -/
inductive Mark where
  | set (a : Address) (f : Flags)
  | execute (a : Address)
  | merge (o : CoverageMap)

def Mark.apply (m : CoverageMap) : Mark → CoverageMap
  | set a f => m.set a f
  | execute a => m.markExecuted a
  | merge o => m.merge o

theorem Address.toNat_max (a b : Address) : (max a b).toNat = max a.toNat b.toNat :=
  apply_ite UInt32.toNat _ _ _

theorem Address.toNat_min (a b : Address) : (min a b).toNat = min a.toNat b.toNat :=
  apply_ite UInt32.toNat _ _ _

namespace CoverageMap

variable {m : CoverageMap} {a b first last : Address} {i j k : Nat}

/-! ## The maps that can be made -/

theorem exists_foldl_mark (marks : List Mark) (u : CoverageMap) :
    ∃ g, marks.foldl Mark.apply u = u.mark g := by
  induction marks generalizing u with
  | nil => exact ⟨fun _ => Flags.empty, mark_empty.symm⟩
  | cons mark rest ih =>
    obtain ⟨g, hg⟩ : ∃ g, mark.apply u = u.mark g := by
      cases mark with
      | set a f => exact ⟨_, set_eq_mark a f⟩
      | execute a =>
        classical
        exact ⟨_, markExecuted_eq_mark a⟩
      | merge o => exact ⟨_, merge_eq_mark u o⟩
    obtain ⟨g', hg'⟩ := ih (u.mark g)
    rw [List.foldl_cons, hg, hg', mark_mark]
    exact ⟨_, rfl⟩

/-- The maps from one address to another that can be made: a blank one, and what a mark makes of
one. -/
inductive Made : Address → Address → CoverageMap → Prop where
  | ofRange {low high : Address} {m : CoverageMap} (h : ofRange low high = .ok m) : Made low high m
  | ofSize {size : UInt32} {m : CoverageMap} (h : ofSize size = .ok m) : Made 0 (size - 1) m
  | mark {low high : Address} {m : CoverageMap} (h : Made low high m) (mark : Mark) :
    Made low high (mark.apply m)

theorem Made.run {low high : Address} (h : Made low high m) (marks : List Mark) :
    Made low high (marks.foldl Mark.apply m) := by
  induction marks generalizing m with
  | nil => exact h
  | cons mark rest ih => exact ih (.mark h mark)

theorem Made.size_eq {low high : Address} (h : Made low high m) :
    low ≤ high ∧ m.low = low ∧ m.size = high.toNat - low.toNat + 1 := by
  induction h with
  | ofRange h =>
    obtain ⟨hle, hlow, hsize, _⟩ := ofRange_eq_ok h
    exact ⟨hle, hlow, hsize⟩
  | @ofSize size m h =>
    unfold CoverageMap.ofSize at h
    split at h
    next => cases h
    next =>
      obtain ⟨hle, hlow, hsize, _⟩ := ofRange_eq_ok h
      exact ⟨hle, hlow, hsize⟩
  | @mark low high m _ mark ih =>
    obtain ⟨g, hg⟩ := exists_foldl_mark [mark] m
    rw [List.foldl_cons, List.foldl_nil] at hg
    rwa [hg, low_mark, size_mark]

/-! ## The next start -/

def behind? (m : CoverageMap) (a : Address) : Option Nat :=
  if a < m.low then some 0 else (m.offset? a).map (· + 1)

theorem nextStart?_eq (m : CoverageMap) (a : Address) :
    m.nextStart? a = ((m.behind? a).bind m.startFrom?).map m.address := rfl

theorem lt_address_iff (hk : k < m.size) : a < m.address k ↔ ∃ i ∈ m.behind? a, i ≤ k := by
  rw [UInt32.lt_iff_toNat_lt, toNat_address hk]
  unfold behind?
  split
  next hbefore =>
    rw [UInt32.lt_iff_toNat_lt] at hbefore
    simp only [Option.mem_def, Option.some.injEq, exists_eq_left', Nat.zero_le, iff_true]
    omega
  next hbefore =>
    rw [UInt32.lt_iff_toNat_lt] at hbefore
    cases hoffset : m.offset? a with
    | some i =>
      obtain ⟨_, ha⟩ := offset?_eq_some_iff.1 hoffset
      simp only [Option.map_some, Option.mem_def, Option.some.injEq, exists_eq_left']
      omega
    | none =>
      have houtside := mt contains_iff.2 (offset?_eq_none_iff.1 hoffset)
      simp only [Option.map_none, Option.mem_def, reduceCtorEq, false_and, exists_false, iff_false]
      omega

theorem nextStart?_address (hi : i < m.size) :
    m.nextStart? (m.address i) = (m.startFrom? (i + 1)).map m.address := by
  have hlow : ¬ m.address i < m.low := by
    rw [UInt32.lt_iff_toNat_lt, toNat_address hi]
    omega
  rw [nextStart?_eq, behind?, if_neg hlow, offset?_address hi]
  rfl

/-- The next start is the least of the starts behind an address. -/
theorem nextStart?_eq_some_iff :
    m.nextStart? a = some b ↔ b ∈ m.starts ∧ a < b ∧ ∀ c ∈ m.starts, a < c → b ≤ c := by
  rw [nextStart?_eq, Option.map_eq_some_iff]
  constructor
  · rintro ⟨k, hk, rfl⟩
    obtain ⟨i, hi, hfirst⟩ := Option.bind_eq_some_iff.1 hk
    obtain ⟨hik, hlt, hstart, hmin⟩ := startFrom?_eq_some_iff.1 hfirst
    refine ⟨mem_starts.2 ⟨k, hlt, hstart, rfl⟩, (lt_address_iff hlt).2 ⟨i, hi, hik⟩, ?_⟩
    intro c hc hac
    obtain ⟨j, hj, hjstart, rfl⟩ := mem_starts.1 hc
    obtain ⟨i', hi', hij⟩ := (lt_address_iff hj).1 hac
    obtain rfl : i = i' := Option.some.inj (hi.symm.trans hi')
    rw [← UInt32.not_lt, address_lt_iff hj hlt]
    intro hjk
    rw [hmin j hij hjk] at hjstart
    cases hjstart
  · rintro ⟨hb, hab, hmin⟩
    obtain ⟨k, hk, hstart, rfl⟩ := mem_starts.1 hb
    obtain ⟨i, hi, hik⟩ := (lt_address_iff hk).1 hab
    refine ⟨k, Option.bind_eq_some_iff.2 ⟨i, hi, startFrom?_eq_some_iff.2 ⟨hik, hk, hstart, ?_⟩⟩, rfl⟩
    intro j hij hjk
    have hj : j < m.size := Nat.lt_trans hjk hk
    refine Bool.eq_false_iff.2 fun hjstart => ?_
    have hle := hmin _ (mem_starts.2 ⟨j, hj, hjstart, rfl⟩) ((lt_address_iff hj).2 ⟨i, hi, hij⟩)
    exact UInt32.not_lt.2 hle ((address_lt_iff hj hk).2 hjk)

theorem nextStart?_eq_none_iff : m.nextStart? a = none ↔ ∀ c ∈ m.starts, c ≤ a := by
  rw [nextStart?_eq, Option.map_eq_none_iff, Option.bind_eq_none_iff]
  constructor
  · intro hnone c hc
    obtain ⟨k, hk, hstart, rfl⟩ := mem_starts.1 hc
    rw [← UInt32.not_lt, lt_address_iff hk]
    rintro ⟨i, hi, hik⟩
    rw [startFrom?_eq_none_iff.1 (hnone i hi) k hik hk] at hstart
    cases hstart
  · intro hall i hi
    refine startFrom?_eq_none_iff.2 fun k hik hk => Bool.eq_false_iff.2 fun hstart => ?_
    have hle := hall _ (mem_starts.2 ⟨k, hk, hstart, rfl⟩)
    exact UInt32.not_lt.2 hle ((lt_address_iff hk).2 ⟨i, hi, hik⟩)

theorem mem_starts_iff : a ∈ m.starts ↔ m.contains a = true ∧ (m.flagsAt a).isStart = true := by
  rw [mem_starts]
  constructor
  · rintro ⟨i, hi, hstart, rfl⟩
    rw [flagsAt_address hi, ← isStartAt_eq]
    exact ⟨contains_address hi, hstart⟩
  · rintro ⟨hcontains, hstart⟩
    obtain ⟨i, hi⟩ := exists_offset? hcontains
    rw [flagsAt_of_offset? hi, ← isStartAt_eq] at hstart
    exact ⟨i, (offset?_eq_some_iff.1 hi).1, hstart, (eq_address_of_offset? hi).symm⟩

/-! ## From start to start -/

theorem nextStart?_of_split {before after : List Address} (h : m.starts = before ++ a :: after) :
    m.nextStart? a = after.head? := by
  have hsorted := m.starts_pairwise
  rw [h, List.pairwise_append, List.pairwise_cons] at hsorted
  obtain ⟨_, ⟨hafter, hrest⟩, hbefore⟩ := hsorted
  have hle : ∀ c ∈ m.starts, c ∉ after → c ≤ a := by
    intro c hc hnot
    rw [h, List.mem_append, List.mem_cons] at hc
    rcases hc with hc | rfl | hc
    · exact UInt32.le_of_lt (hbefore c hc a List.mem_cons_self)
    · exact UInt32.le_refl c
    · exact absurd hc hnot
  cases after with
  | nil => exact nextStart?_eq_none_iff.2 fun c hc => hle c hc List.not_mem_nil
  | cons b rest =>
    refine nextStart?_eq_some_iff.2 ⟨by simp [h], hafter b List.mem_cons_self, fun c hc hac => ?_⟩
    by_cases hmem : c ∈ b :: rest
    · rcases List.mem_cons.1 hmem with rfl | hmem
      · exact UInt32.le_refl c
      · exact UInt32.le_of_lt ((List.pairwise_cons.1 hrest).1 c hmem)
    · exact absurd hac (UInt32.not_lt.2 (hle c hc hmem))

theorem iterate_nextStart? (m : CoverageMap) (k : Nat) :
    Nat.iterate (·.bind m.nextStart?) k m.starts.head? = m.starts[k]? := by
  induction k with
  | zero => exact List.head?_eq_getElem?
  | succ k ih =>
    rw [Function.iterate_succ_apply', ih]
    rcases Nat.lt_or_ge k m.starts.length with hk | hk
    · have hsplit : m.starts = m.starts.take k ++ m.starts[k] :: m.starts.drop (k + 1) := by
        rw [List.getElem_cons_drop, List.take_append_drop]
      rw [List.getElem?_eq_getElem hk, Option.bind_some, nextStart?_of_split hsplit,
        List.head?_drop]
    · rw [List.getElem?_eq_none hk, List.getElem?_eq_none (by omega)]
      rfl

/-! ## Starts between two addresses -/

theorem countP_extract (hij : i ≤ j) (hj : j ≤ m.size) :
    (m.flags.extract i j).countP Flags.isStart =
      (List.range m.size).countP fun k => m.isStartAt k && (i ≤ k && k < j) := by
  have hstarts : Flags.isStart ∘ m.byte = m.isStartAt := funext fun k => (m.isStartAt_eq k).symm
  have hsplit : List.range m.size =
      List.range' 0 i ++ (List.range' i (j - i) ++ List.range' j (m.size - j)) := by
    have hend := List.range'_append_1 (s := i) (m := j - i) (n := m.size - j)
    have hall := List.range'_append_1 (s := 0) (m := i) (n := j - i + (m.size - j))
    rw [Nat.add_sub_cancel' hij] at hend
    rw [Nat.zero_add] at hall
    rw [hend, hall, List.range_eq_range', show i + (j - i + (m.size - j)) = m.size by omega]
  have hwindow : (m.flags.extract i j).toList = (List.range' i (j - i)).map m.byte := by
    rw [Array.toList_extract, List.extract_eq_take_drop, toList_flags, hsplit, List.map_append,
      List.drop_left' (by simp), List.map_append, List.take_left' (by simp)]
  have houtside (a n : Nat) (h : ∀ k, a ≤ k → k < a + n → ¬(i ≤ k ∧ k < j)) :
      (List.range' a n).countP (fun k => m.isStartAt k && (i ≤ k && k < j)) = 0 := by
    refine List.countP_eq_zero.2 fun k hk => ?_
    have := List.mem_range'_1.1 hk
    simp only [Bool.and_eq_true, decide_eq_true_eq]
    exact fun hin => h k this.1 this.2 hin.2
  have hbefore := houtside 0 i fun k _ hk hin => by omega
  have hafter := houtside j (m.size - j) fun k hk _ hin => by omega
  rw [← Array.countP_toList, hwindow, List.countP_map, hstarts, hsplit, List.countP_append,
    List.countP_append, hbefore, hafter, Nat.zero_add, Nat.add_zero]
  refine List.countP_congr fun k hk => ?_
  have hk := List.mem_range'_1.1 hk
  have hin : i ≤ k ∧ k < j := by omega
  simp [hin]

theorem countP_starts (p : Address → Bool) :
    m.starts.countP p = (List.range m.size).countP fun k => m.isStartAt k && p (m.address k) := by
  have hsize : m.flags.size = m.size := rfl
  rw [starts, List.countP_map, List.countP_filter, hsize]
  exact List.countP_congr fun k _ => by rw [Bool.and_comm]; rfl

theorem startCountIn_eq (m : CoverageMap) (first last : Address) :
    m.startCountIn first last = m.starts.countP fun a => first ≤ a && a ≤ last := by
  have hmax : (max first m.low).toNat = max first.toNat m.low.toNat := Address.toNat_max _ _
  have hmin : (min last m.high).toNat = min last.toNat (m.low.toNat + (m.size - 1)) := by
    rw [Address.toNat_min, toNat_high]
  have hpos := m.size_pos
  rw [countP_starts]
  unfold startCountIn
  dsimp only
  split
  next hlt =>
    -- Nothing is left of the interval, since it lies outside the map.
    rw [UInt32.lt_iff_toNat_lt, hmax, hmin] at hlt
    refine (List.countP_eq_zero.2 fun k hk => ?_).symm
    have hk := List.mem_range.1 hk
    simp only [Bool.and_eq_true, decide_eq_true_eq, UInt32.le_iff_toNat_le, toNat_address hk]
    omega
  next hle =>
    rw [UInt32.lt_iff_toNat_lt, hmax, hmin] at hle
    have hi : (max first m.low - m.low).toNat = max first.toNat m.low.toNat - m.low.toNat := by
      rw [UInt32.toNat_sub_of_le _ _ (UInt32.le_iff_toNat_le.2 (by omega)), hmax]
    have hj : (min last m.high - m.low).toNat =
        min last.toNat (m.low.toNat + (m.size - 1)) - m.low.toNat := by
      rw [UInt32.toNat_sub_of_le _ _ (UInt32.le_iff_toNat_le.2 (by omega)), hmin]
    rw [hi, hj, countP_extract (by omega) (by omega)]
    refine List.countP_congr fun k hk => ?_
    have hk := List.mem_range.1 hk
    simp only [Bool.and_eq_true, decide_eq_true_eq, UInt32.le_iff_toNat_le, toNat_address hk]
    exact and_congr_right fun _ => by omega

/-! ## All views -/

/-- A map has one set of flags for each address from its first to its last one. The next start behind
any address is the least one in the list of starts that is greater. The list ascends, and has the
addresses of the map that are flagged so. The starts between any two addresses are counted as they
stand in it, and the way from the first start to the next ones runs through it to its end. -/
theorem starts_agree {low high : Address} (h : Made low high m) :
    (low ≤ high ∧ m.low = low ∧ m.high = high ∧
      m.flags.size = high.toNat - low.toNat + 1) ∧
    (∀ a b, m.nextStart? a = some b ↔ b ∈ m.starts ∧ a < b ∧ ∀ c ∈ m.starts, a < c → b ≤ c) ∧
    (∀ a, m.nextStart? a = none ↔ ∀ c ∈ m.starts, c ≤ a) ∧
    m.starts.Pairwise (· < ·) ∧
    (∀ a, a ∈ m.starts ↔ (low ≤ a ∧ a ≤ high) ∧ (m.flagsAt a).isStart = true) ∧
    (∀ first last, m.startCountIn first last = m.starts.countP fun a => first ≤ a && a ≤ last) ∧
    ∀ k, Nat.iterate (·.bind m.nextStart?) k m.starts.head? = m.starts[k]? := by
  obtain ⟨hle, hlow, hsize⟩ := h.size_eq
  have hhigh : m.high = high := by
    rw [← UInt32.toNat_inj, toNat_high, hlow, hsize]
    rw [UInt32.le_iff_toNat_le] at hle
    omega
  refine ⟨⟨hle, hlow, hhigh, hsize⟩, fun a b => nextStart?_eq_some_iff,
    fun a => nextStart?_eq_none_iff, m.starts_pairwise, fun a => ?_, m.startCountIn_eq,
    m.iterate_nextStart?⟩
  rw [mem_starts_iff, contains, hlow, hhigh, Bool.and_eq_true, decide_eq_true_eq, decide_eq_true_eq]

def sixBytes : CoverageMap where
  low := 0x100
  flags := Array.replicate 6 Flags.empty
  nonempty := by decide
  fits := by decide

def threeStarts : CoverageMap :=
  [.set 0x100 .start, .set 0x102 .start, .execute 0x100, .set 0x106 .start,
    .merge { low := 0, flags := #[.empty, .empty, .empty, .empty, .start, .empty, .start, .start],
             nonempty := by decide, fits := by decide }].foldl Mark.apply sixBytes

theorem starts_agree_threeStarts :
    threeStarts.flags.size = 6 ∧ threeStarts.nextStart? 0 = some 0x100 ∧
      threeStarts.nextStart? 0x102 = some 0x104 ∧ threeStarts.nextStart? 0x104 = none ∧
      threeStarts.startCountIn 0x101 0xffffffff = 2 ∧
      Nat.iterate (·.bind threeStarts.nextStart?) 2 threeStarts.starts.head? = some 0x104 := by
  have hblank : ofRange 0x100 0x105 = .ok sixBytes := by decide
  have hmade : Made 0x100 0x105 threeStarts := Made.run (.ofRange hblank) _
  have hlist : threeStarts.starts = [0x100, 0x102, 0x104] := by decide
  obtain ⟨⟨_, _, _, hsize⟩, hnext, hnone, _, _, hcount, hwalk⟩ := starts_agree hmade
  refine ⟨hsize, (hnext _ _).2 ?_, (hnext _ _).2 ?_, (hnone _).2 ?_, ?_, ?_⟩
  · rw [hlist]
    simp
  · rw [hlist]
    simp
  · rw [hlist]
    simp
  · rw [hcount, hlist]
    rfl
  · rw [hwalk, hlist]
    rfl

end CoverageMap

end TraceCoverage

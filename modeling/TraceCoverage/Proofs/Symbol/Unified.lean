import TraceCoverage.Proofs.Listing.Marking
import TraceCoverage.Symbol.Analysis
import Mathlib.Data.List.Perm.Basic

/-!
# Unified maps

A unified map has at each offset the flags of all maps that were merged into it, in whatever order
that was. Marking it with the lines of a symbol adds what these lines set.
-/

namespace TraceCoverage.CoverageMap

variable {m : CoverageMap} {maps maps' : List CoverageMap} {i : Nat}

/-! ## Merging many maps -/

def bytes (maps : List CoverageMap) (i : Nat) : Flags :=
  maps.foldr (fun m f => (m.byte i).union f) Flags.empty

theorem bytes_cons (m : CoverageMap) (maps : List CoverageMap) (i : Nat) :
    bytes (m :: maps) i = (m.byte i).union (bytes maps i) := rfl

theorem bytes_perm (h : maps.Perm maps') : bytes maps = bytes maps' := by
  funext i
  induction h with
  | nil => rfl
  | cons m _ ih => exact congrArg (m.byte i).union ih
  | swap m m' rest =>
    simp only [bytes, List.foldr_cons]
    rw [← Flags.union_assoc, Flags.union_comm (m'.byte i), Flags.union_assoc]
  | trans _ _ ih ih' => exact ih.trans ih'

theorem bytes_iff {p : Flags → Bool} (hunion : ∀ f g, p (f.union g) = (p f || p g))
    (hempty : p Flags.empty = false) :
    p (bytes maps i) = true ↔ ∃ m ∈ maps, p (m.byte i) = true := by
  induction maps with
  | nil => simp [bytes, hempty]
  | cons m rest ih =>
    rw [bytes, List.foldr_cons, hunion, Bool.or_eq_true, List.exists_mem_cons_iff, ← ih]
    rfl

@[simp]
theorem low_foldl_merge (m : CoverageMap) (maps : List CoverageMap) :
    (maps.foldl merge m).low = m.low := by
  induction maps generalizing m with
  | nil => rfl
  | cons o rest ih => rw [List.foldl_cons, ih, low_merge]

@[simp]
theorem size_foldl_merge (m : CoverageMap) (maps : List CoverageMap) :
    (maps.foldl merge m).size = m.size := by
  induction maps generalizing m with
  | nil => rfl
  | cons o rest ih => rw [List.foldl_cons, ih, size_merge]

theorem byte_foldl_merge (h : i < m.size) :
    (maps.foldl merge m).byte i = (m.byte i).union (bytes maps i) := by
  induction maps generalizing m with
  | nil => simp [bytes]
  | cons o rest ih =>
    rw [List.foldl_cons, ih (by simpa using h), byte_merge h, Flags.union_assoc]
    rfl

/-- A map of `n` bytes from address 0 with the flags of some maps. -/
structure Unifies (maps : List CoverageMap) (n : Nat) (m : CoverageMap) : Prop where
  low : m.low = 0
  size : m.size = n
  byte : ∀ i < n, m.byte i = bytes maps i

theorem unifies_foldl_merge (maps : List CoverageMap) {size : UInt32} {blank : CoverageMap}
    (h : ofSize size = .ok blank) : Unifies maps size.toNat (maps.foldl merge blank) := by
  unfold ofSize at h
  split at h
  next => cases h
  next hsize =>
    obtain ⟨_, hlow, hlength, hblank⟩ := ofRange_eq_ok h
    have hpos : 1 ≤ size.toNat := by
      rw [Nat.one_le_iff_ne_zero, Ne, ← UInt32.toNat_zero, UInt32.toNat_inj]
      exact hsize
    have hnat : (size - 1).toNat = size.toNat - 1 := Address.toNat_sub_one hsize
    have hzero : (0 : Address).toNat = 0 := rfl
    have heq : blank.size = size.toNat := by omega
    refine ⟨by rw [low_foldl_merge, hlow], by rw [size_foldl_merge, heq], fun i hi => ?_⟩
    rw [byte_foldl_merge (by omega), hblank, Flags.empty_union]

theorem Unifies.eq_of_perm {n : Nat} {m m' : CoverageMap} (h : Unifies maps n m)
    (h' : Unifies maps' n m') (hperm : maps.Perm maps') : m = m' := by
  apply ext_byte (h.low.trans h'.low.symm) (h.size.trans h'.size.symm)
  intro i hi
  rw [h.size] at hi
  rw [h.byte i hi, h'.byte i hi, bytes_perm hperm]

/-! ## Marking lines -/

theorem fromBase?_eq_iff {base a o : Address} (h : base.toNat + o.toNat < 0x100000000) :
    fromBase? base a = some o ↔ a = base + o := by
  have hsum : (base + o).toNat = base.toNat + o.toNat := by
    rw [UInt32.toNat_add, Nat.mod_eq_of_lt h]
  simp only [fromBase?, Option.ite_none_right_eq_some, Option.some.injEq]
  constructor
  · rintro ⟨_, rfl⟩
    exact (Address.base_add_sub base a).symm
  · rintro rfl
    exact ⟨UInt32.le_iff_toNat_le.2 (by omega), Address.add_sub_base base o⟩

theorem bind_fromBase?_eq_some_iff {base o : Address} (a? : Option Address)
    (h : base.toNat + o.toNat < 0x100000000) :
    a?.bind (fromBase? base) = some o ↔ a? = some (base + o) := by
  cases a? with
  | none => simp
  | some a => rw [Option.bind_some, fromBase?_eq_iff h, Option.some.injEq]

def targetOffset? (base : Address) : List CodeLine → Address → Option Address
  | [], _ => none
  | l :: rest, o =>
    (targetOffset? base rest o).or
      (if l.address.bind (fromBase? base) = some o then l.target?.bind (fromBase? base) else none)

section

variable {base : Address} {lines : List CodeLine} {state : CoverageMap × TargetOffsets}

theorem markLine_fst (l : CodeLine) : (markLine base state l).1 =
    ((l.address.bind (fromBase? base)).map fun o => state.1.set o l.flags).getD state.1 := by
  unfold markLine
  cases l.address.bind (fromBase? base) <;> rfl

theorem low_size_markLines (base : Address) (lines : List CodeLine)
    (state : CoverageMap × TargetOffsets) :
    (lines.foldl (markLine base) state).1.low = state.1.low ∧
      (lines.foldl (markLine base) state).1.size = state.1.size := by
  induction lines generalizing state with
  | nil => exact ⟨rfl, rfl⟩
  | cons l rest ih =>
    have hstep : (markLine base state l).1.low = state.1.low ∧
        (markLine base state l).1.size = state.1.size := by
      rw [markLine_fst]
      cases l.address.bind (fromBase? base) <;> simp
    rw [List.foldl_cons, (ih _).1, (ih _).2]
    exact hstep

theorem byte_foldl_markLine (lines : List CodeLine) (state : CoverageMap × TargetOffsets)
    (hlow : state.1.low = 0) (hi : i < state.1.size)
    (hfits : base.toNat + state.1.size ≤ 0x100000000) :
    (lines.foldl (markLine base) state).1.byte i =
      (state.1.byte i).union (CodeLine.flagsAt lines (base + UInt32.ofNat i)) := by
  have hnat : (UInt32.ofNat i).toNat = i := by
    rw [UInt32.toNat_ofNat', Nat.mod_eq_of_lt (by omega)]
  induction lines generalizing state with
  | nil => simp [CodeLine.flagsAt]
  | cons l rest ih =>
    have hlow' : (markLine base state l).1.low = 0 := by
      rw [← hlow]
      exact (low_size_markLines base [l] state).1
    have hsize : (markLine base state l).1.size = state.1.size :=
      (low_size_markLines base [l] state).2
    rw [List.foldl_cons, ih _ hlow' (hsize ▸ hi) (hsize ▸ hfits), CodeLine.flagsAt,
      ← Flags.union_assoc, markLine_fst]
    congr 1
    have hat := bind_fromBase?_eq_some_iff l.address
      (show base.toNat + (UInt32.ofNat i).toNat < 0x100000000 by omega)
    simp only [← hat]
    cases ho : l.address.bind (fromBase? base) with
    | none => simp
    | some o =>
      have hoffset : state.1.offset? o = some i ↔ o = UInt32.ofNat i := by
        rw [offset?_eq_some_iff, hlow, ← UInt32.toNat_inj, hnat, UInt32.toNat_zero, Nat.zero_add]
        exact ⟨fun h => h.2, fun h => ⟨hi, h⟩⟩
      rw [Option.map_some, Option.getD_some, byte_set]
      simp only [hoffset, Option.some.injEq]
      split <;> simp

theorem getElem?_foldl_markLine (o : Address) :
    (lines.foldl (markLine base) state).2[o]? =
      (targetOffset? base lines o).or state.2[o]? := by
  induction lines generalizing state with
  | nil => simp [targetOffset?]
  | cons l rest ih =>
    rw [List.foldl_cons, ih, targetOffset?, Option.or_assoc]
    congr 1
    unfold markLine
    cases ha : l.address.bind (fromBase? base) with
    | none => simp
    | some o' =>
      cases ht : l.target?.bind (fromBase? base) with
      | none => simp
      | some target =>
        simp only [Std.ExtTreeMap.getElem?_insert, Std.LawfulEqCmp.compare_eq_iff_eq,
          Option.some.injEq]
        split <;> rfl

end

end TraceCoverage.CoverageMap

import TraceCoverage.Proofs.Run.Ranges
import TraceCoverage.Proofs.Symbol.Extremes

/-!
# Symbols that no trace enters

A symbol that never ran is one range of the report, from its first instruction to its end. That is
the whole symbol only if some executable lists an instruction where the symbol starts. What lies in
front of the first instruction is in no range and counts as executed.
-/

namespace TraceCoverage

/-- The report shows all of the symbol in one range, and nothing of it as executed. -/
structure Symbol.WhollyUncovered (s : Symbol) : Prop where
  ranges : ∃ n, s.ranges =
    [{ symbol := s.name
       start := s.base
       last := s.base + (UInt32.ofNat s.stats.sizeInBytes - 1)
       instructions := n
       kind := .notExecuted }]
  uncovered : s.stats.uncoveredBytes = s.stats.sizeInBytes
  percent : s.stats.percentExecutedBytes = 0

/-- The report of a symbol of which nothing ran: one range from its first instruction to its end,
and none if it has no instruction. -/
structure Symbol.NothingRan (s : Symbol) (u : CoverageMap) : Prop where
  unified : s.unified = some u
  low : u.low = 0
  fits : u.size < 0x100000000
  ranges : s.ranges =
    (u.starts.head?.map fun first =>
      { symbol := s.name
        start := s.base + first
        last := s.base + u.high
        instructions := u.starts.length
        kind := .notExecuted : UncoveredRange }).toList
  stats : s.stats = .ofSymbol s

open CoverageMap

namespace Symbol.NothingRan

variable {s : Symbol} {u : CoverageMap} (h : s.NothingRan u)
include h

theorem sizeInBytes : s.stats.sizeInBytes = u.size := by
  rw [h.stats, Statistics.ofSymbol, h.unified]

theorem uncoveredBytes :
    s.stats.uncoveredBytes = (s.ranges.map (·.sizeInBytes.toNat)).foldr (· + ·) 0 := by
  rw [h.stats, Statistics.ofSymbol, h.unified]

theorem high : u.high = UInt32.ofNat s.stats.sizeInBytes - 1 := by
  have hsize : (UInt32.ofNat u.size).toNat = u.size := by
    rw [UInt32.toNat_ofNat', Nat.mod_eq_of_lt h.fits]
  have hne : UInt32.ofNat u.size ≠ 0 := by
    rw [Ne, ← UInt32.toNat_inj, hsize]
    exact Nat.ne_of_gt u.size_pos
  rw [h.sizeInBytes, ← UInt32.toNat_inj, toNat_high, h.low, Address.toNat_sub_one hne, hsize]
  simp

theorem whollyUncovered_iff_isStartAt : s.WhollyUncovered ↔ u.isStartAt 0 = true := by
  have hranges := h.ranges
  rw [← head?_starts_eq_low_iff, h.low]
  constructor
  · rintro ⟨⟨n, hone⟩, _⟩
    rw [hranges] at hone
    cases hhead : u.starts.head? with
    | none => simp [hhead] at hone
    | some first =>
      simp only [hhead, Option.map_some, Option.toList_some, List.cons.injEq,
        UncoveredRange.mk.injEq] at hone
      have hfirst := Address.add_sub_base s.base first
      rw [hone.1.2.1, UInt32.sub_self] at hfirst
      rw [hfirst]
  · intro hhead
    rw [hhead, h.high] at hranges
    have hall : s.stats.uncoveredBytes = s.stats.sizeInBytes := by
      simp only [h.uncoveredBytes, hranges, Option.map_some, Option.toList_some, List.map_cons,
        List.map_nil, List.foldr_cons, List.foldr_nil, UncoveredRange.sizeInBytes, UInt32.add_zero,
        Address.add_sub_base, UInt32.sub_add_cancel, Nat.add_zero]
      rw [h.sizeInBytes, UInt32.toNat_ofNat', Nat.mod_eq_of_lt h.fits]
    refine ⟨⟨u.starts.length, by simpa using hranges⟩, hall, ?_⟩
    rw [Statistics.percentExecutedBytes, hall, Nat.sub_self, percent, Nat.zero_mul, Nat.zero_div]

end Symbol.NothingRan

namespace Pipeline

open Listing

namespace Recording

variable (t : Target) (format : TraceFormat) (wanted : String → Bool) (name : String)
  (rec : Recording)

def PassesBy : Prop :=
  ∀ s ∈ rec.symbols t wanted, s.name = name →
    ∀ x ∈ (rec.entries format).flatten, s.inside x.pc = false

def StartsAtBase : Prop :=
  ∃ s ∈ rec.symbols t wanted, s.name = name ∧ ∃ l ∈ s.lines, l.address = some s.base

instance : Decidable (rec.PassesBy t format wanted name) :=
  inferInstanceAs (Decidable (∀ s ∈ rec.symbols t wanted, _))

instance : Decidable (rec.StartsAtBase t wanted name) :=
  inferInstanceAs (Decidable (∃ s ∈ rec.symbols t wanted, _))

variable {t format wanted name rec} {p : Part}

theorem PassesBy.isExecuted_part (h : rec.PassesBy t format wanted name)
    (hfresh : rec.executable.Fresh) (hp : rec.part? t format wanted name = some p) (i : Nat) :
    (p.map.byte i).isExecuted = false := by
  rcases Nat.lt_or_ge i p.map.size with hi | hi
  · rw [Bool.eq_false_iff, Ne, Recording.isExecuted_part hfresh hp hi]
    rintro ⟨x, hx, m, j, hm, _, hoffset, _⟩
    obtain ⟨_, hmem, hname, m', hm', hdraws, _⟩ := part?_eq_some hfresh hp
    obtain rfl := Option.some.inj (hm.symm.trans hm')
    have hcontains : m.contains x.pc = true := by
      rw [eq_address_of_offset? hoffset]
      exact contains_address (offset?_eq_some_iff.1 hoffset).1
    have hinside : p.symbol.inside x.pc = true := by
      rw [ResolvedSymbol.inside, Bool.and_eq_true, decide_eq_true_eq, decide_eq_true_eq]
      exact hdraws.contains_iff.1 hcontains
    rw [h p.symbol hmem hname x hx] at hinside
    cases hinside
  · rw [byte_of_size_le hi]
    decide

theorem isStartAt_part (hfresh : rec.executable.Fresh)
    (hp : rec.part? t format wanted name = some p) :
    p.map.isStartAt 0 = true ↔ rec.StartsAtBase t wanted name := by
  obtain ⟨_, hmem, hname, _⟩ := part?_eq_some hfresh hp
  have hstart : p.map.isStartAt 0 = true ↔
      ∃ l ∈ p.symbol.lines, l.address = some p.symbol.base := by
    rw [isStartAt_eq, byte_part hfresh hp p.map.size_pos, Flags.isStart_union,
      (Executable.inert_evidences _ name 0).1, Bool.or_false, CodeLine.isStart_flagsAt]
    simp
  rw [hstart]
  constructor
  · exact fun h => ⟨p.symbol, hmem, hname, h⟩
  · rintro ⟨s, hs, rfl, h⟩
    obtain ⟨q, hq, rfl⟩ := exists_part_of_mem format hfresh hs
    obtain rfl := Option.some.inj (hp.symm.trans hq)
    exact h

end Recording

section

variable {t : Target} {format : TraceFormat} {wanted : String → Bool} {recs : List Recording}
  {name : String} {m : CoverageMap} {n : Nat}
  (hfresh : ∀ rec ∈ recs, rec.executable.Fresh)
  (hm : Unifies ((parts t format wanted recs name).map (·.map)) n m)
include hfresh hm

theorem allRan_merged (h : ∀ rec ∈ recs, rec.PassesBy t format wanted name) :
    m.AllRan false := by
  intro a ha
  obtain ⟨i, hi, _, rfl⟩ := mem_starts.1 ha
  rw [flagsAt_address hi, Bool.eq_false_iff, Ne, hm.isExecuted_iff hi]
  rintro ⟨o, ho, hran⟩
  obtain ⟨p, hp, rfl⟩ := List.mem_map.1 ho
  obtain ⟨rec, hrec, hpart⟩ := List.mem_filterMap.1 hp
  rw [(h rec hrec).isExecuted_part (hfresh rec hrec) hpart] at hran
  cases hran

theorem isStartAt_merged :
    m.isStartAt 0 = true ↔ ∃ rec ∈ recs, rec.StartsAtBase t wanted name := by
  rw [isStartAt_eq, hm.byte 0 (hm.size ▸ m.size_pos), bytes_iff Flags.isStart_union (by decide)]
  constructor
  · rintro ⟨o, ho, hstart⟩
    obtain ⟨p, hp, rfl⟩ := List.mem_map.1 ho
    obtain ⟨rec, hrec, hpart⟩ := List.mem_filterMap.1 hp
    exact ⟨rec, hrec, (Recording.isStartAt_part (hfresh rec hrec) hpart).1 (by rwa [isStartAt_eq])⟩
  · rintro ⟨rec, hrec, hstarts⟩
    obtain ⟨s, hs, rfl, _⟩ := id hstarts
    obtain ⟨p, hpart, _⟩ := Recording.exists_part_of_mem format (hfresh rec hrec) hs
    refine ⟨p.map, List.mem_map_of_mem (List.mem_filterMap.2 ⟨rec, hrec, hpart⟩), ?_⟩
    rw [← isStartAt_eq]
    exact (Recording.isStartAt_part (hfresh rec hrec) hpart).2 hstarts

end

section

variable {t : Target} {format : TraceFormat} {names : List String} {recs : List Recording}
  {r : Registry} {totals : Totals} {k : String} {s : Symbol}
  (hfresh : ∀ rec ∈ recs, rec.executable.Fresh)
  (hrun : run t format (.wanting names) recs = .ok (r, totals)) (hs : r.find? k = some s)
  (hres : s.isResolved = true)
  (hpasses : ∀ rec ∈ recs, rec.PassesBy t format (Registry.wanting names).contains k)
include hfresh hrun hs hres hpasses

theorem nothingRan_of_run :
    ∃ u, s.NothingRan u ∧ (u.isStartAt 0 = true ↔
      ∃ rec ∈ recs, rec.StartsAtBase t (Registry.wanting names).contains k) := by
  obtain ⟨u, hu⟩ := exists_unified_of_run hfresh hrun hs hres
  obtain ⟨p, rest, m, targets, hparts, _, _, hm, ha⟩ := analyzed_of_run hfresh hrun hs hu
  rw [← hparts] at hm
  have hmissed := allRan_merged hfresh hm hpasses
  have hfilled := fillPadding_of_allRan hmissed
  refine ⟨m, ⟨hfilled ▸ ha.unified, hm.low, hm.size ▸ p.symbol.size.toNat_lt, ?_, ha.stats⟩,
    isStartAt_merged hfresh hm⟩
  rw [ha.ranges, hfilled, uncoveredRanges_of_missed hmissed]

/-- A resolved symbol that no trace enters is wholly uncovered in the report exactly if some
executable lists an instruction where the symbol starts. -/
theorem whollyUncovered_iff :
    s.WhollyUncovered ↔
      ∃ rec ∈ recs, rec.StartsAtBase t (Registry.wanting names).contains k := by
  obtain ⟨u, hnothing, hstart⟩ := nothingRan_of_run hfresh hrun hs hres hpasses
  rw [hnothing.whollyUncovered_iff_isStartAt, hstart]

end

def leftOut : Recording where
  executable := { id := 0, file := "a.exe" }
  listing := ["100 <f>:", "\t...", "110 <g>:", "110:\tret", "111 <h>:"]
  traces := [["110"]]

def listed : Recording where
  executable := { id := 1, file := "b.exe" }
  listing := ["200 <f>:", "200:\tinc %eax", "201:\tret", "202 <g>:"]
  traces := []

theorem whollyUncovered_iff_leftOut :
    ∃ r totals s, run i386 .pcs (.wanting ["f"]) [leftOut, listed] = .ok (r, totals) ∧
      r.find? "f" = some s ∧ s.WhollyUncovered := by
  have hfresh : ∀ rec ∈ [leftOut, listed], rec.executable.Fresh := by
    simp only [List.forall_mem_cons]
    exact ⟨⟨rfl, rfl, rfl⟩, ⟨rfl, rfl, rfl⟩, by simp⟩
  obtain ⟨r, totals, hrun⟩ : ∃ r totals,
      run i386 .pcs (.wanting ["f"]) [leftOut, listed] = .ok (r, totals) :=
    run_ok hfresh (by decide +kernel)
  have hfound : ((run i386 .pcs (.wanting ["f"]) [leftOut, listed]).toOption.bind
      (·.1.find? "f")).any (·.isResolved) = true := by
    decide +kernel
  rw [hrun] at hfound
  obtain ⟨s, hs, hres⟩ := (Option.any_eq_true _ _).1 hfound
  exact ⟨r, totals, s, hrun, hs,
    (whollyUncovered_iff hfresh hrun hs hres (by decide +kernel)).2
      ⟨listed, by simp, by decide +kernel⟩⟩

/-- A function that never ran is shown as executed from end to end. -/
theorem executed_without_running :
    ∃ r totals s, run i386 .pcs (.wanting ["f"]) [leftOut] = .ok (r, totals) ∧
      r.find? "f" = some s ∧ s.isResolved = true ∧
      leftOut.PassesBy i386 .pcs (Registry.wanting ["f"]).contains "f" ∧
      s.ranges = [] ∧ s.stats.sizeInBytes = 16 ∧ s.stats.uncoveredBytes = 0 ∧
      s.stats.percentExecutedBytes = 100 := by
  obtain ⟨r, totals, hrun⟩ : ∃ r totals,
      run i386 .pcs (.wanting ["f"]) [leftOut] = .ok (r, totals) :=
    run_ok (by simpa using ⟨rfl, rfl, rfl⟩) (by decide +kernel)
  have hfound : ((run i386 .pcs (.wanting ["f"]) [leftOut]).toOption.bind
      (·.1.find? "f")).any (fun s => s.isResolved ∧ s.ranges = [] ∧ s.stats.sizeInBytes = 16 ∧
        s.stats.uncoveredBytes = 0 ∧ s.stats.percentExecutedBytes = 100) = true := by
    decide +kernel
  rw [hrun] at hfound
  obtain ⟨s, hs, hshown⟩ := (Option.any_eq_true _ _).1 hfound
  obtain ⟨hres, hranges⟩ := of_decide_eq_true hshown
  exact ⟨r, totals, s, hrun, hs, hres, by decide +kernel, hranges⟩

end Pipeline

end TraceCoverage

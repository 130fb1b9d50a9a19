import TraceCoverage.Proofs.Trace.Evidence

/-!
# What a replay records

A replay records what its trace shows and nothing else. Said for every byte of every map: when it
is executed afterwards, when it fell through and when it jumped.
-/

namespace TraceCoverage

namespace CoverageMap

variable {m : CoverageMap} {pc a : Address} {i k : Nat}

/-- Executing the instruction at `pc` executes the byte at `a`: no instruction starts behind `pc`
up to there. -/
def Extends (m : CoverageMap) (pc a : Address) : Prop :=
  pc ≤ a ∧ ∀ b, pc < b → b ≤ a → (m.flagsAt b).isStart = false

theorem spans_iff_extends (hi : m.offset? pc = some i) (hk : m.offset? a = some k) :
    m.Spans i k ↔ m.Extends pc a := by
  rw [offset?_eq_some_iff] at hi hk
  have hle : pc ≤ a ↔ i ≤ k := by
    rw [UInt32.le_iff_toNat_le]
    omega
  unfold Spans Extends
  rw [hle]
  constructor
  · rintro ⟨hik, _, hno⟩
    refine ⟨hik, ?_⟩
    intro b hpc hba
    rw [UInt32.lt_iff_toNat_lt] at hpc
    rw [UInt32.le_iff_toNat_le] at hba
    have hb : m.offset? b = some (b.toNat - m.low.toNat) := by
      rw [offset?_eq_some_iff]
      omega
    rw [flagsAt_of_offset? hb, ← isStartAt_eq]
    apply hno <;> omega
  · rintro ⟨hik, hno⟩
    refine ⟨hik, hk.1, ?_⟩
    intro j hij hjk
    have hj : j < m.size := by omega
    rw [isStartAt_eq, ← flagsAt_address hj]
    apply hno
    · rw [UInt32.lt_iff_toNat_lt, toNat_address hj]
      omega
    · rw [UInt32.le_iff_toNat_le, toNat_address hj]
      omega

end CoverageMap

namespace Executable

variable {e : Executable} {trace : List TraceEntry} {name : String} {m : CoverageMap}
  {pc a : Address} {k : Nat}

/-! ## Evidence by addresses -/

section

variable (hm : e.maps[name]? = some m) (hk : m.offset? a = some k)
include hm hk

theorem covers_iff_extends :
    e.Covers pc name k ↔ e.lookup? pc = some (name, m) ∧ m.Extends pc a := by
  unfold Covers
  constructor
  · rintro ⟨m', i, hl, hi, hspans⟩
    obtain rfl := Option.some.inj (hm.symm.trans (getElem?_maps_of_lookup? hl))
    exact ⟨hl, (CoverageMap.spans_iff_extends hi hk).1 hspans⟩
  · rintro ⟨hl, hextends⟩
    obtain ⟨i, hi⟩ := offset?_of_lookup? hl
    exact ⟨m, i, hl, hi, (CoverageMap.spans_iff_extends hi hk).2 hextends⟩

theorem exists_branch_iff {p : TraceEntry × TraceEntry} {P : CoverageMap → Prop} :
    (∃ m', e.lookup? p.1.pc = some (name, m') ∧ m'.offset? p.1.pc = some k ∧
      (m'.byte k).isBranch = true ∧ P m') ↔
      ((m.flagsAt a).isBranch = true ∧ e.lookup? a = some (name, m)) ∧ p.1.pc = a ∧ P m := by
  rw [CoverageMap.flagsAt_of_offset? hk]
  constructor
  · rintro ⟨m', hl, hoffset, hbranch, hp⟩
    obtain rfl := Option.some.inj (hm.symm.trans (getElem?_maps_of_lookup? hl))
    have hpc : p.1.pc = a := by
      rw [CoverageMap.eq_address_of_offset? hoffset, CoverageMap.eq_address_of_offset? hk]
    exact ⟨⟨hbranch, hpc ▸ hl⟩, hpc, hp⟩
  · rintro ⟨⟨hbranch, hl⟩, rfl, hp⟩
    exact ⟨m, hl, hk, hbranch, hp⟩

theorem exists_fallsThrough_iff (pairs : List (TraceEntry × TraceEntry)) :
    (∃ p ∈ pairs, e.FallsThrough p name k) ↔
      ((m.flagsAt a).isBranch = true ∧ e.lookup? a = some (name, m)) ∧
        ∃ p ∈ pairs, p.1.pc = a ∧ m.fallThrough? p.1 = some p.2.pc := by
  simp only [FallsThrough, exists_branch_iff hm hk]
  rw [← exists_and_left]
  simp only [and_left_comm]

theorem exists_jumps_iff (pairs : List (TraceEntry × TraceEntry)) :
    (∃ p ∈ pairs, e.Jumps p name k) ↔
      ((m.flagsAt a).isBranch = true ∧ e.lookup? a = some (name, m)) ∧
        ∃ p ∈ pairs, p.1.pc = a ∧
          m.fallThrough? p.1 ≠ some p.2.pc ∧ e.target? a = some p.2.pc := by
  simp only [Jumps, exists_branch_iff hm hk]
  rw [← exists_and_left]
  apply exists_congr
  intro p
  constructor
  · rintro ⟨hp, hbranch, rfl, hjump⟩
    exact ⟨hbranch, hp, rfl, hjump⟩
  · rintro ⟨hbranch, hp, rfl, hjump⟩
    exact ⟨hp, hbranch, rfl, hjump⟩

end

/-! ## One map -/

/-- What a replay makes of the map of a symbol. -/
structure Recorded (e : Executable) (trace : List TraceEntry) (name : String)
    (m m' : CoverageMap) : Prop where
  low : m'.low = m.low
  size : m'.size = m.size
  start a : (m'.flagsAt a).isStart = (m.flagsAt a).isStart
  branch a : (m'.flagsAt a).isBranch = (m.flagsAt a).isBranch
  nop a : (m'.flagsAt a).isNop = (m.flagsAt a).isNop
  executed a : m.contains a = true →
    ((m'.flagsAt a).isExecuted = true ↔
      (m.flagsAt a).isExecuted = true ∨
        ∃ x ∈ trace, e.lookup? x.pc = some (name, m) ∧ m.Extends x.pc a)
  notTaken b :
    (m'.flagsAt b).isNotTaken = true ↔
      (m.flagsAt b).isNotTaken = true ∨
        ((m.flagsAt b).isBranch = true ∧ e.lookup? b = some (name, m)) ∧
          ∃ p ∈ trace.consecutivePairs, p.1.pc = b ∧ m.fallThrough? p.1 = some p.2.pc
  taken b :
    (m'.flagsAt b).isTaken = true ↔
      (m.flagsAt b).isTaken = true ∨
        ((m.flagsAt b).isBranch = true ∧ e.lookup? b = some (name, m)) ∧
          ∃ p ∈ trace.consecutivePairs, p.1.pc = b ∧
            m.fallThrough? p.1 ≠ some p.2.pc ∧ e.target? b = some p.2.pc

theorem not_lookup?_of_not_contains (ha : ¬ m.contains a = true) :
    ¬ e.lookup? a = some (name, m) := by
  intro hl
  obtain ⟨_, _, _, _, hc⟩ := lookup?_eq_some_iff.1 hl
  exact ha hc

theorem recorded_mark (hm : e.maps[name]? = some m) :
    e.Recorded trace name m (m.mark (e.evidence trace name)) := by
  have hinert := e.inert_shown trace trace.consecutivePairs
  constructor
  case low => exact CoverageMap.low_mark _
  case size => exact CoverageMap.size_mark _
  case start => exact CoverageMap.meets_flagsAt_mark fun i => (hinert name i).1
  case branch => exact CoverageMap.meets_flagsAt_mark fun i => (hinert name i).2
  case nop => exact CoverageMap.meets_flagsAt_mark fun i => Flags.isNop_evidence _ _ _
  case executed =>
    intro a ha
    obtain ⟨k, hk⟩ := CoverageMap.exists_offset? ha
    rw [CoverageMap.flagsAt_mark _ hk, Flags.isExecuted_union, Bool.or_eq_true, evidence,
      isExecuted_shown]
    simp only [covers_iff_extends hm hk]
  case notTaken =>
    intro b
    by_cases hb : m.contains b = true
    · obtain ⟨k, hk⟩ := CoverageMap.exists_offset? hb
      rw [CoverageMap.flagsAt_mark _ hk, Flags.isNotTaken_union, Bool.or_eq_true, evidence,
        isNotTaken_shown, exists_fallsThrough_iff hm hk]
    · rw [CoverageMap.flagsAt_of_not_contains hb,
        CoverageMap.flagsAt_of_not_contains (by simpa using hb)]
      simp [not_lookup?_of_not_contains hb]
  case taken =>
    intro b
    by_cases hb : m.contains b = true
    · obtain ⟨k, hk⟩ := CoverageMap.exists_offset? hb
      rw [CoverageMap.flagsAt_mark _ hk, Flags.isTaken_union, Bool.or_eq_true, evidence,
        isTaken_shown, exists_jumps_iff hm hk]
    · rw [CoverageMap.flagsAt_of_not_contains hb,
        CoverageMap.flagsAt_of_not_contains (by simpa using hb)]
      simp [not_lookup?_of_not_contains hb]

end Executable

/-! ## The summary -/

theorem TraceSummary.add_eq (a b : TraceSummary) :
    a + b = ⟨a.entries + b.entries, a.matched + b.matched⟩ := rfl

namespace Replay

variable {e : Executable}

theorem isSome_mapAt?_mark (g : Executable.Marks) (a : Address) :
    ((e.mark g).mapAt? a).isSome = (e.mapAt? a).isSome := by
  unfold Executable.mapAt?
  rw [Executable.lookup?_mark]
  simp only [Option.isSome_map]

theorem summary_step (w : Replay) (x : TraceEntry) :
    (w.step x).summary =
      w.summary + ⟨1, if (w.executable.mapAt? x.pc).isSome then 1 else 0⟩ := by
  obtain ⟨e, previous, summary⟩ := w
  cases previous with
  | none => rfl
  | some y =>
    simp only [step, Executable.recordDirection_eq_mark, isSome_mapAt?_mark]

theorem summary_foldl_step (entries : List TraceEntry) (g : Executable.Marks)
    (previous : Option TraceEntry) (summary : TraceSummary) :
    (entries.foldl step { executable := e.mark g, previous, summary }).summary =
      summary + ⟨entries.length, entries.countP fun x => (e.mapAt? x.pc).isSome⟩ := by
  induction entries generalizing g previous summary with
  | nil => rfl
  | cons x rest ih =>
    have hexecutable := Executable.step_eq_mark (e := e.mark g) previous summary x
    have hsummary := summary_step { executable := e.mark g, previous, summary } x
    rw [Executable.mark_mark] at hexecutable
    rw [List.foldl_cons]
    generalize step { executable := e.mark g, previous, summary } x = w at hexecutable hsummary
    obtain ⟨_, _, _⟩ := w
    simp only at hexecutable hsummary
    subst hexecutable hsummary
    rw [ih, isSome_mapAt?_mark, List.countP_cons, List.length_cons, TraceSummary.add_eq,
      TraceSummary.add_eq, TraceSummary.add_eq]
    simp only [TraceSummary.mk.injEq]
    omega

/-- A replay changes nothing but the maps, and these exactly by what the trace shows. It counts the
entries, and those that some map has. -/
theorem run_exact (e : Executable) (trace : List TraceEntry) :
    let w := run e trace
    w.executable = { e with maps := w.executable.maps } ∧
      w.summary = ⟨trace.length, trace.countP fun x => (e.mapAt? x.pc).isSome⟩ ∧
      ∀ name, Option.Rel (e.Recorded trace name) e.maps[name]? w.executable.maps[name]? := by
  intro w
  have hw : w.executable = e.mark (e.evidence trace) := Executable.run_eq_mark e trace
  refine ⟨?_, ?_, ?_⟩
  · rw [hw]
    rfl
  · have h := summary_foldl_step (e := e) trace Executable.Marks.none none {}
    rw [Executable.mark_none, TraceSummary.add_eq, Nat.zero_add, Nat.zero_add] at h
    exact h
  · intro name
    rw [hw, Executable.getElem?_maps_mark]
    cases hm : e.maps[name]? with
    | none => exact .none
    | some m => exact .some (Executable.recorded_mark hm)

end Replay

end TraceCoverage

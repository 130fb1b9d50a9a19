import TraceCoverage.Proofs.Executable.Marks
import TraceCoverage.Session.Pipeline
import Mathlib.Data.List.Defs
import Mathlib.Tactic.Tauto

/-!
# The evidence of a trace

What a trace shows is said here without a walk: which bytes its program counters cover, and which
directions its consecutive entries show. A replay marks the executable with exactly that, so the
order of traces cannot matter, nor anything that earlier traces marked.
-/

open Classical

namespace TraceCoverage

/-- The address behind an executed instruction: where the trace puts it, or else where the next
instruction of the map starts. -/
def CoverageMap.fallThrough? (m : CoverageMap) (entry : TraceEntry) : Option Address :=
  entry.next.or (m.nextStart? entry.pc)

namespace Executable

variable {e : Executable} {g : Marks} {name : String} {k : Nat}

def Covers (e : Executable) (pc : Address) (name : String) (k : Nat) : Prop :=
  ∃ m i, e.lookup? pc = some (name, m) ∧ m.offset? pc = some i ∧ m.Spans i k

def FallsThrough (e : Executable) (entries : TraceEntry × TraceEntry) (name : String) (k : Nat) :
    Prop :=
  ∃ m, e.lookup? entries.1.pc = some (name, m) ∧ m.offset? entries.1.pc = some k ∧
    (m.byte k).isBranch ∧ m.fallThrough? entries.1 = some entries.2.pc

def Jumps (e : Executable) (entries : TraceEntry × TraceEntry) (name : String) (k : Nat) : Prop :=
  ∃ m, e.lookup? entries.1.pc = some (name, m) ∧ m.offset? entries.1.pc = some k ∧
    (m.byte k).isBranch ∧ m.fallThrough? entries.1 ≠ some entries.2.pc ∧
    e.target? entries.1.pc = some entries.2.pc

/-- What executed entries and pairs of entries in a row show of every byte. -/
noncomputable def shown (e : Executable) (entries : List TraceEntry)
    (pairs : List (TraceEntry × TraceEntry)) : Marks := fun name k =>
  .evidence (∃ x ∈ entries, e.Covers x.pc name k) (∃ p ∈ pairs, e.Jumps p name k)
    (∃ p ∈ pairs, e.FallsThrough p name k)

noncomputable def evidence (e : Executable) (trace : List TraceEntry) : Marks :=
  e.shown trace trace.consecutivePairs

section

variable {entries : List TraceEntry} {pairs : List (TraceEntry × TraceEntry)}

theorem isExecuted_shown :
    (e.shown entries pairs name k).isExecuted = true ↔ ∃ x ∈ entries, e.Covers x.pc name k := by
  rw [shown, Flags.isExecuted_evidence, decide_eq_true_eq]

theorem isTaken_shown :
    (e.shown entries pairs name k).isTaken = true ↔ ∃ p ∈ pairs, e.Jumps p name k := by
  rw [shown, Flags.isTaken_evidence, decide_eq_true_eq]

theorem isNotTaken_shown :
    (e.shown entries pairs name k).isNotTaken = true ↔ ∃ p ∈ pairs, e.FallsThrough p name k := by
  rw [shown, Flags.isNotTaken_evidence, decide_eq_true_eq]

end

theorem inert_shown (entries : List TraceEntry) (pairs : List (TraceEntry × TraceEntry)) :
    (e.shown entries pairs).Inert := by
  intro name k
  simp [shown]

@[simp]
theorem shown_nil : e.shown [] [] = .none := by
  funext name k
  simp [shown, Marks.none]

theorem shown_union (entries entries' : List TraceEntry)
    (pairs pairs' : List (TraceEntry × TraceEntry)) :
    (e.shown entries pairs).union (e.shown entries' pairs') =
      e.shown (entries ++ entries') (pairs ++ pairs') := by
  funext name k
  simp only [Marks.union, shown, Flags.evidence_union, ← Bool.decide_or, List.mem_append,
    or_and_right, exists_or]

/-! ## Marks change no evidence -/

theorem covers_iff {pc : Address} : e.Covers pc name k ↔
    ∃ m, e.lookup? pc = some (name, m) ∧ ∃ i, m.offset? pc = some i ∧ m.Spans i k := by
  simp only [Covers, exists_and_left]

theorem covers_mark (hg : g.Inert) (pc : Address) :
    (e.mark g).Covers pc name k ↔ e.Covers pc name k := by
  rw [covers_iff, covers_iff, exists_lookup?_mark]
  simp only [CoverageMap.offset?_mark, CoverageMap.spans_mark fun j => (hg name j).1]

theorem isBranch_byte_mark {m : CoverageMap} (hg : g.Inert) (name : String) (k : Nat) :
    ((m.mark (g name)).byte k).isBranch = (m.byte k).isBranch := by
  rcases Nat.lt_or_ge k m.size with h | h
  · rw [CoverageMap.byte_mark _ h, Flags.isBranch_union, (hg name k).2, Bool.or_false]
  · rw [CoverageMap.byte_of_size_le h, CoverageMap.byte_of_size_le (by simpa using h)]

theorem fallThrough?_mark {m : CoverageMap} (hg : g.Inert) (name : String) (x : TraceEntry) :
    (m.mark (g name)).fallThrough? x = m.fallThrough? x := by
  rw [CoverageMap.fallThrough?, CoverageMap.nextStart?_mark fun j => (hg name j).1]
  rfl

theorem fallsThrough_mark (hg : g.Inert) (p : TraceEntry × TraceEntry) :
    (e.mark g).FallsThrough p name k ↔ e.FallsThrough p name k := by
  unfold FallsThrough
  rw [exists_lookup?_mark]
  simp only [CoverageMap.offset?_mark, isBranch_byte_mark hg, fallThrough?_mark hg]

theorem jumps_mark (hg : g.Inert) (p : TraceEntry × TraceEntry) :
    (e.mark g).Jumps p name k ↔ e.Jumps p name k := by
  have ht : (e.mark g).target? p.1.pc = e.target? p.1.pc := rfl
  unfold Jumps
  rw [exists_lookup?_mark]
  simp only [CoverageMap.offset?_mark, isBranch_byte_mark hg, fallThrough?_mark hg, ht]

theorem shown_mark (hg : g.Inert) (entries : List TraceEntry)
    (pairs : List (TraceEntry × TraceEntry)) :
    (e.mark g).shown entries pairs = e.shown entries pairs := by
  funext name k
  simp only [shown, covers_mark hg, jumps_mark hg, fallsThrough_mark hg]

/-! ## One step -/

theorem markExecuted_eq_mark (e : Executable) (x : TraceEntry) :
    e.markExecuted x.pc = e.mark (e.shown [x] []) := by
  rw [markExecuted, updateAt_eq_mark fun m => CoverageMap.markExecuted_eq_mark x.pc]
  congr 1
  funext name k
  cases hl : e.lookup? x.pc with
  | none => simp [shown, Covers, hl]
  | some found =>
    obtain ⟨name', m⟩ := found
    by_cases hn : name' = name
    · subst hn
      by_cases hs : ∃ i, m.offset? x.pc = some i ∧ m.Spans i k
      · simp [shown, Covers, hl, hs]
        rfl
      · simp [shown, Covers, hl, hs]
    · simp [shown, Covers, hl, hn]

theorem set_eq_mark (a : Address) (f : Flags) :
    e.set a f = e.mark fun name k =>
      if ∃ m, e.lookup? a = some (name, m) ∧ m.offset? a = some k then f else Flags.empty := by
  rw [set, updateAt_eq_mark fun m => CoverageMap.set_eq_mark a f]
  congr 1
  funext name k
  cases hl : e.lookup? a with
  | none => simp
  | some found =>
    obtain ⟨name', m⟩ := found
    by_cases hn : name' = name
    · subst hn
      simp
    · simp [hn]

section

variable {x y : TraceEntry} {name' : String} {m : CoverageMap} {i : Nat}
  (hl : e.lookup? x.pc = some (name', m)) (hi : m.offset? x.pc = some i)
include hl hi

theorem jumps_iff_of_lookup? :
    e.Jumps (x, y) name k ↔ (name' = name ∧ i = k) ∧ (m.byte i).isBranch ∧
      m.fallThrough? x ≠ some y.pc ∧ e.target? x.pc = some y.pc := by
  rw [Jumps, exists_lookup?_iff hl, hi, Option.some.injEq]
  constructor
  · rintro ⟨hn, rfl, h⟩
    exact ⟨⟨hn, rfl⟩, h⟩
  · rintro ⟨⟨hn, rfl⟩, h⟩
    exact ⟨hn, rfl, h⟩

theorem fallsThrough_iff_of_lookup? :
    e.FallsThrough (x, y) name k ↔ (name' = name ∧ i = k) ∧ (m.byte i).isBranch ∧
      m.fallThrough? x = some y.pc := by
  rw [FallsThrough, exists_lookup?_iff hl, hi, Option.some.injEq]
  constructor
  · rintro ⟨hn, rfl, h⟩
    exact ⟨⟨hn, rfl⟩, h⟩
  · rintro ⟨⟨hn, rfl⟩, h⟩
    exact ⟨hn, rfl, h⟩

theorem shown_pair_of_lookup? :
    e.shown [] [(x, y)] = fun name k => .evidence false
      ((name' = name ∧ i = k) ∧ (m.byte i).isBranch ∧ m.fallThrough? x ≠ some y.pc ∧
        e.target? x.pc = some y.pc)
      ((name' = name ∧ i = k) ∧ (m.byte i).isBranch ∧ m.fallThrough? x = some y.pc) := by
  funext name k
  simp only [shown, List.mem_singleton, exists_eq_left, jumps_iff_of_lookup? hl hi,
    fallsThrough_iff_of_lookup? hl hi, List.not_mem_nil, false_and, exists_false, decide_false]

end

theorem recordDirection_eq_mark (e : Executable) (x y : TraceEntry) :
    e.recordDirection x y.pc = e.mark (e.shown [] [(x, y)]) := by
  unfold recordDirection mapAt?
  cases hl : e.lookup? x.pc with
  | none =>
    have hnone : e.shown [] [(x, y)] = .none := by
      funext name k
      simp [shown, Jumps, FallsThrough, hl, Marks.none]
    rw [hnone, mark_none]
    rfl
  | some found =>
    obtain ⟨name, m⟩ := found
    obtain ⟨i, hi⟩ := offset?_of_lookup? hl
    have hfall : x.next.or (m.nextStart? x.pc) = m.fallThrough? x := rfl
    simp only [Option.map_some, CoverageMap.flagsAt_of_offset? hi, hfall, markDirection,
      set_eq_mark, exists_lookup?_iff hl, hi, Option.some.injEq, shown_pair_of_lookup? hl hi]
    -- The fall-through is asked first, so such a pair never counts as a jump.
    by_cases hb : (m.byte i).isBranch
    · by_cases hf : m.fallThrough? x = some y.pc
      · simp only [hb, hf, if_true]
        congr 1
        funext name' k
        by_cases hk : name = name' ∧ i = k <;> simp [hk]
        rfl
      · by_cases ht : e.target? x.pc = some y.pc
        · simp only [hb, hf, ht, if_true, if_false]
          congr 1
          funext name' k
          by_cases hk : name = name' ∧ i = k <;> simp [hk, hf]
          rfl
        · simp only [hb, hf, ht, if_true, if_false, and_false, decide_false]
          exact mark_none.symm
    · simp only [hb, if_false, Bool.false_eq_true, false_and, and_false, decide_false]
      exact mark_none.symm

theorem step_eq_mark (previous : Option TraceEntry) (summary : TraceSummary) (y : TraceEntry) :
    (Replay.step { executable := e, previous, summary } y).executable =
      e.mark (e.shown [y] (previous.toList.map (·, y))) := by
  cases previous with
  | none => exact markExecuted_eq_mark e y
  | some x =>
    simp only [Replay.step, recordDirection_eq_mark, markExecuted_eq_mark, mark_mark,
      shown_mark (inert_shown _ _), shown_union]
    rfl

/-! ## Whole traces -/

theorem foldl_step_eq_mark (entries : List TraceEntry) (hg : g.Inert)
    (previous : Option TraceEntry) (summary : TraceSummary) :
    (entries.foldl Replay.step { executable := e.mark g, previous, summary }).executable =
      e.mark (g.union (e.shown entries (previous.toList ++ entries).consecutivePairs)) := by
  induction entries generalizing g previous summary with
  | nil =>
    have hpairs : (previous.toList ++ []).consecutivePairs = [] := by
      cases previous <;> rfl
    rw [hpairs, shown_nil, Marks.union_none]
    rfl
  | cons y rest ih =>
    have hstep := step_eq_mark (e := e.mark g) previous summary y
    rw [mark_mark, shown_mark hg] at hstep
    have hprev : (Replay.step { executable := e.mark g, previous, summary } y).previous =
        some y := rfl
    have hpairs : (previous.toList ++ y :: rest).consecutivePairs =
        previous.toList.map (·, y) ++ (y :: rest).consecutivePairs := by
      cases previous <;> simp [List.consecutivePairs]
    rw [List.foldl_cons]
    generalize Replay.step { executable := e.mark g, previous, summary } y = w at hstep hprev
    obtain ⟨_, _, _⟩ := w
    simp only at hstep hprev
    subst hstep hprev
    rw [ih (hg.union (inert_shown _ _)), hpairs, ← List.singleton_append (l := rest),
      ← shown_union [y] rest, Marks.union_assoc]
    rfl

/-- A replay marks the executable with what the trace shows. -/
theorem run_eq_mark (e : Executable) (trace : List TraceEntry) :
    (Replay.run e trace).executable = e.mark (e.evidence trace) := by
  have h := foldl_step_eq_mark (e := e) trace Marks.inert_none none {}
  rw [mark_none, Marks.none_union] at h
  exact h

noncomputable def evidences (e : Executable) (traces : List (List TraceEntry)) : Marks :=
  e.shown traces.flatten (traces.flatMap List.consecutivePairs)

theorem inert_evidences (traces : List (List TraceEntry)) : (e.evidences traces).Inert :=
  inert_shown _ _

section

variable {traces : List (List TraceEntry)}

theorem isExecuted_evidences :
    (e.evidences traces name k).isExecuted = true ↔ ∃ x ∈ traces.flatten, e.Covers x.pc name k :=
  isExecuted_shown

theorem isTaken_evidences :
    (e.evidences traces name k).isTaken = true ↔
      ∃ p ∈ traces.flatMap List.consecutivePairs, e.Jumps p name k :=
  isTaken_shown

theorem isNotTaken_evidences :
    (e.evidences traces name k).isNotTaken = true ↔
      ∃ p ∈ traces.flatMap List.consecutivePairs, e.FallsThrough p name k :=
  isNotTaken_shown

theorem isExecuted_evidences_of_hasDirection
    (h : (e.evidences traces name k).hasDirection = true) :
    (e.evidences traces name k).isExecuted = true := by
  have hcovers : ∀ p ∈ traces.flatMap List.consecutivePairs, ∀ m,
      e.lookup? p.1.pc = some (name, m) → m.offset? p.1.pc = some k →
      ∃ x ∈ traces.flatten, e.Covers x.pc name k := by
    intro p hp m hlookup hoffset
    obtain ⟨trace, htrace, hpair⟩ := List.mem_flatMap.1 hp
    have hspans : m.Spans k k := CoverageMap.spans_self (CoverageMap.offset?_eq_some_iff.1 hoffset).1
    exact ⟨p.1, List.mem_flatten.2 ⟨trace, htrace, (List.of_mem_zip hpair).1⟩, m, k, hlookup,
      hoffset, hspans⟩
  rw [Flags.hasDirection_eq, Bool.or_eq_true, isTaken_evidences, isNotTaken_evidences] at h
  rw [isExecuted_evidences]
  rcases h with ⟨p, hp, m, hlookup, hoffset, _⟩ | ⟨p, hp, m, hlookup, hoffset, _⟩
  · exact hcovers p hp m hlookup hoffset
  · exact hcovers p hp m hlookup hoffset

end

theorem foldl_replay_eq_mark (format : TraceFormat) (traces : List (List String)) (hg : g.Inert) :
    traces.foldl (fun e lines => (e.replay format { lines }).state) (e.mark g) =
      e.mark (g.union (e.evidences (traces.map (·.filterMap format.entry?)))) := by
  induction traces generalizing g with
  | nil =>
    have hnone : e.evidences ([].map (List.filterMap format.entry?)) = .none := shown_nil
    rw [hnone, Marks.union_none]
    rfl
  | cons lines rest ih =>
    have hreplay : ((e.mark g).replay format { lines }).state =
        e.mark (g.union (e.evidence (lines.filterMap format.entry?))) := by
      rw [Executable.replay, run_eq_mark, mark_mark, evidence, shown_mark hg, ← evidence]
    rw [List.foldl_cons, hreplay, evidence, ih (hg.union (inert_shown _ _)), Marks.union_assoc,
      evidences, shown_union, ← List.flatten_cons, ← List.flatMap_cons]
    rfl

theorem replayAll_eq_mark (format : TraceFormat) (e : Executable) (traces : List (List String)) :
    Pipeline.replayAll format e traces =
      e.mark (e.evidences (traces.map (·.filterMap format.entry?))) := by
  have h := foldl_replay_eq_mark (e := e) format traces Marks.inert_none
  rw [mark_none, Marks.none_union] at h
  exact h

end Executable

end TraceCoverage

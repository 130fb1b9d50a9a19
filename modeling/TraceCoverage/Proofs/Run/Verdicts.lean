import TraceCoverage.Proofs.Run.Analysis
import TraceCoverage.Proofs.Symbol.Branches
import TraceCoverage.Proofs.Symbol.Padding
import TraceCoverage.Proofs.Listing.Ordered

/-!
# The verdicts of a run

A branch gets its verdict from the pairs of entries that follow each other in the traces of all
executables. It counts which of its two ways some pair took, and neither how often nor in which
trace.
-/

namespace TraceCoverage.Pipeline

open CoverageMap Listing

namespace Recording

section

variable (t : Target) (format : TraceFormat) (wanted : String → Bool) (name : String)
  (rec : Recording) (i : Nat)

/-- Two entries that follow each other in a trace show something, given the map that the executable
made of a symbol. The first of them is for the instruction at an offset of the symbol. -/
def Shows (what : CoverageMap → TraceEntry × TraceEntry → Prop) : Prop :=
  ∃ s ∈ rec.symbols t wanted, s.name = name ∧ ∃ m ∈ (rec.built t wanted).maps[name]?,
    ∃ trace ∈ rec.entries format, ∃ entries ∈ trace.consecutivePairs,
      entries.1.pc = s.base + UInt32.ofNat i ∧ what m entries

def FellThrough : Prop :=
  rec.Shows t format wanted name i fun m entries => m.fallThrough? entries.1 = some entries.2.pc

def Jumped : Prop :=
  rec.Shows t format wanted name i fun m entries =>
    m.fallThrough? entries.1 ≠ some entries.2.pc ∧
      (rec.built t wanted).target? entries.1.pc = some entries.2.pc

instance (what : CoverageMap → TraceEntry × TraceEntry → Prop)
    [∀ m entries, Decidable (what m entries)] :
    Decidable (rec.Shows t format wanted name i what) :=
  inferInstanceAs (Decidable (∃ s ∈ rec.symbols t wanted, _))

instance : Decidable (rec.FellThrough t format wanted name i) :=
  inferInstanceAs (Decidable (rec.Shows ..))

instance : Decidable (rec.Jumped t format wanted name i) :=
  inferInstanceAs (Decidable (rec.Shows ..))

end

variable {t : Target} {format : TraceFormat} {wanted : String → Bool} {name : String}
  {rec : Recording} {p : Part} {i : Nat}

theorem shows_iff (hfresh : rec.executable.Fresh)
    (hordered : Ordered t rec.executable.loadAddress rec.listing)
    (hp : rec.part? t format wanted name = some p) (hsize : p.symbol.size ≠ 0)
    (hi : i < p.map.size) {what : CoverageMap → TraceEntry × TraceEntry → Prop} :
    rec.Shows t format wanted name i what ↔
      ∃ entries ∈ (rec.entries format).flatMap List.consecutivePairs, ∃ m,
        (rec.built t wanted).lookup? entries.1.pc = some (name, m) ∧
          m.offset? entries.1.pc = some i ∧ what m entries := by
  have hb := built_spec t wanted hfresh
  obtain ⟨_, hmem, rfl, m₀, hm₀, hdraws, hmap⟩ := part?_eq_some hfresh hp
  rw [hmap, size_mark] at hi
  have hat : m₀.address i = p.symbol.base + UInt32.ofNat i := by
    rw [address, hdraws.low]
  constructor
  · rintro ⟨s, hs, hname, m, hm, trace, htrace, entries, hentries, hpc, hwhat⟩
    obtain rfl := Option.some.inj (hm₀.symm.trans hm)
    obtain rfl : s = p.symbol := List.inj_on_of_nodup_map hb.distinct hs hmem hname
    rw [← hat] at hpc
    have hlookup := hb.lookup?_eq (hordered.contributions_pairwise wanted) hmem hsize hm hdraws
      (hpc ▸ contains_address hi)
    exact ⟨entries, List.mem_flatMap.2 ⟨trace, htrace, hentries⟩, m₀, hlookup,
      hpc ▸ offset?_address hi, hwhat⟩
  · rintro ⟨entries, hentries, m, hlookup, hoffset, hwhat⟩
    obtain ⟨trace, htrace, hpair⟩ := List.mem_flatMap.1 hentries
    have hm := Executable.getElem?_maps_of_lookup? hlookup
    obtain rfl := Option.some.inj (hm₀.symm.trans hm)
    exact ⟨p.symbol, hmem, rfl, m₀, hm, trace, htrace, entries, hpair,
      hat ▸ eq_address_of_offset? hoffset, hwhat⟩

section

variable (hfresh : rec.executable.Fresh) (hp : rec.part? t format wanted name = some p)
  (hi : i < p.map.size)
include hfresh hp hi

theorem exists_branch_iff_shows (hordered : Ordered t rec.executable.loadAddress rec.listing)
    (hsize : p.symbol.size ≠ 0) (hbranch : (p.map.byte i).isBranch = true)
    {what : CoverageMap → TraceEntry × TraceEntry → Prop} :
    (∃ entries ∈ (rec.entries format).flatMap List.consecutivePairs, ∃ m,
      (rec.built t wanted).lookup? entries.1.pc = some (name, m) ∧
        m.offset? entries.1.pc = some i ∧ (m.byte i).isBranch = true ∧ what m entries) ↔
      rec.Shows t format wanted name i what := by
  obtain ⟨_, _, _, m₀, hm₀, _, hmap⟩ := part?_eq_some hfresh hp
  rw [shows_iff hfresh hordered hp hsize hi]
  constructor
  · rintro ⟨entries, hentries, m, hlookup, hoffset, _, hwhat⟩
    exact ⟨entries, hentries, m, hlookup, hoffset, hwhat⟩
  · rintro ⟨entries, hentries, m, hlookup, hoffset, hwhat⟩
    -- The traces marked the map of the part, and marks change no branch.
    obtain rfl := Option.some.inj (hm₀.symm.trans (Executable.getElem?_maps_of_lookup? hlookup))
    rw [hmap, Executable.isBranch_byte_mark (Executable.inert_evidences _)] at hbranch
    exact ⟨entries, hentries, m₀, hlookup, hoffset, hbranch, hwhat⟩

theorem isTaken_part (hordered : Ordered t rec.executable.loadAddress rec.listing)
    (hsize : p.symbol.size ≠ 0) (hbranch : (p.map.byte i).isBranch = true) :
    (p.map.byte i).isTaken = true ↔ rec.Jumped t format wanted name i := by
  rw [byte_part hfresh hp hi, Flags.isTaken_union, CodeLine.isTaken_flagsAt, Bool.false_or,
    Executable.isTaken_evidences]
  exact exists_branch_iff_shows hfresh hp hi hordered hsize hbranch

theorem isNotTaken_part (hordered : Ordered t rec.executable.loadAddress rec.listing)
    (hsize : p.symbol.size ≠ 0) (hbranch : (p.map.byte i).isBranch = true) :
    (p.map.byte i).isNotTaken = true ↔ rec.FellThrough t format wanted name i := by
  rw [byte_part hfresh hp hi, Flags.isNotTaken_union, CodeLine.isNotTaken_flagsAt, Bool.false_or,
    Executable.isNotTaken_evidences]
  exact exists_branch_iff_shows hfresh hp hi hordered hsize hbranch

theorem isExecuted_of_hasDirection (hdirection : (p.map.byte i).hasDirection = true) :
    (p.map.byte i).isExecuted = true := by
  rw [Flags.hasDirection_eq, byte_part hfresh hp hi, Flags.isTaken_union, Flags.isNotTaken_union,
    CodeLine.isTaken_flagsAt, CodeLine.isNotTaken_flagsAt, Bool.false_or, Bool.false_or,
    ← Flags.hasDirection_eq] at hdirection
  rw [byte_part hfresh hp hi, Flags.isExecuted_union,
    Executable.isExecuted_evidences_of_hasDirection hdirection, Bool.or_true]

end

theorem exists_part (hfresh : rec.executable.Fresh)
    {what : CoverageMap → TraceEntry × TraceEntry → Prop}
    (h : rec.Shows t format wanted name i what) :
    ∃ p, rec.part? t format wanted name = some p := by
  obtain ⟨s, hs, rfl, _⟩ := h
  obtain ⟨p, hp, _⟩ := exists_part_of_mem format hfresh hs
  exact ⟨p, hp⟩

end Recording

section

variable {t : Target} {format : TraceFormat} {wanted : String → Bool} {recs : List Recording}
  {name : String} {n i : Nat} {m : CoverageMap}

theorem merged_iff {flag : Flags → Bool} (hunion : ∀ f g, flag (f.union g) = (flag f || flag g))
    (hempty : flag Flags.empty = false)
    (hm : Unifies ((parts t format wanted recs name).map (·.map)) n m) (hi : i < n)
    {reason : Recording → Prop}
    (hreason : ∀ rec ∈ recs, reason rec → ∃ p, rec.part? t format wanted name = some p)
    (hpart : ∀ rec ∈ recs, ∀ p, rec.part? t format wanted name = some p →
      (flag (p.map.byte i) = true ↔ reason rec)) :
    flag (m.byte i) = true ↔ ∃ rec ∈ recs, reason rec := by
  rw [hm.byte i hi, bytes_iff hunion hempty]
  simp only [List.mem_map, parts, List.mem_filterMap, exists_exists_and_eq_and]
  constructor
  · rintro ⟨p, ⟨rec, hrec, hp⟩, hflag⟩
    exact ⟨rec, hrec, (hpart rec hrec p hp).1 hflag⟩
  · rintro ⟨rec, hrec, h⟩
    obtain ⟨p, hp⟩ := hreason rec hrec h
    exact ⟨p, ⟨rec, hrec, hp⟩, (hpart rec hrec p hp).2 h⟩

section

variable (hfresh : ∀ rec ∈ recs, rec.executable.Fresh) (hagree : Agree t wanted recs) {p : Part}
  {rest : List Part} (hparts : parts t format wanted recs name = p :: rest)
  (hsize : p.symbol.size ≠ 0)
include hfresh hagree hparts hsize

theorem size_of_mem_parts {q : Part} (hq : q ∈ p :: rest) :
    q.symbol.size ≠ 0 ∧ q.map.size = p.symbol.size.toNat := by
  rw [← hparts] at hq
  obtain ⟨heq, _⟩ := hagree.parts hfresh (hparts ▸ List.mem_cons_self) hq
  rw [(sound_of_mem_parts hfresh hq).size_eq (heq ▸ hsize), ← heq]
  exact ⟨hsize, rfl⟩

variable (hm : Unifies ((p :: rest).map (·.map)) p.symbol.size.toNat m)
  (hi : i < p.symbol.size.toNat) (hbranch : (m.byte i).isBranch = true)
include hm hi hbranch

theorem isBranch_of_mem_parts {q : Part} (hq : q ∈ p :: rest) : (q.map.byte i).isBranch = true := by
  rw [hm.byte i hi, bytes_iff Flags.isBranch_union (by decide)] at hbranch
  obtain ⟨_, hmap, hflagged⟩ := hbranch
  obtain ⟨q₀, hq₀, rfl⟩ := List.mem_map.1 hmap
  have hin := (size_of_mem_parts hfresh hagree hparts hsize hq).2
  have hin₀ := (size_of_mem_parts hfresh hagree hparts hsize hq₀).2
  -- `q₀` flags the branch, so the shape that all parts have shows it.
  rw [← hparts] at hq hq₀
  rw [(sound_of_mem_parts hfresh hq).isBranch_iff (hin ▸ hi), (hagree.parts hfresh hq hq₀).2,
    ← (sound_of_mem_parts hfresh hq₀).isBranch_iff (hin₀ ▸ hi)]
  exact hflagged

/-- The branch at an offset of a merged map went the ways that some executable shows, and only if it
ran. -/
theorem directions_of_merged
    (hordered : ∀ rec ∈ recs, Ordered t rec.executable.loadAddress rec.listing) :
    (m.byte i).isStart = true ∧
      ((m.byte i).isTaken = true ↔ ∃ rec ∈ recs, rec.Jumped t format wanted name i) ∧
      ((m.byte i).isNotTaken = true ↔ ∃ rec ∈ recs, rec.FellThrough t format wanted name i) ∧
      ((m.byte i).hasDirection = true → (m.byte i).isExecuted = true) := by
  have hflagged : ∀ q ∈ p :: rest, (q.map.byte i).isBranch = true := fun q hq =>
    isBranch_of_mem_parts hfresh hagree hparts hsize hm hi hbranch hq
  have hfits : ∀ q ∈ p :: rest, q.symbol.size ≠ 0 ∧ i < q.map.size := by
    intro q hq
    obtain ⟨hq, hlength⟩ := size_of_mem_parts hfresh hagree hparts hsize hq
    exact ⟨hq, hlength ▸ hi⟩
  have hmem : ∀ rec ∈ recs, ∀ q, rec.part? t format wanted name = some q → q ∈ p :: rest :=
    fun rec hrec q hq => hparts ▸ List.mem_filterMap.2 ⟨rec, hrec, hq⟩
  have hm' := hparts ▸ hm
  refine ⟨?_, ?_, ?_, ?_⟩
  · rw [hm.byte i hi, bytes_iff Flags.isStart_union (by decide)]
    have hp : p ∈ p :: rest := List.mem_cons_self
    exact ⟨p.map, List.mem_map_of_mem hp,
      (sound_of_mem_parts hfresh (hparts ▸ hp)).isStart_of_isBranch (hfits p hp).2 (hflagged p hp)⟩
  · apply merged_iff Flags.isTaken_union (by decide) hm' hi
    · exact fun rec hrec h => Recording.exists_part (hfresh rec hrec) h
    · intro rec hrec q hq
      have hin := hmem rec hrec q hq
      exact Recording.isTaken_part (hfresh rec hrec) hq (hfits q hin).2 (hordered rec hrec)
        (hfits q hin).1 (hflagged q hin)
  · apply merged_iff Flags.isNotTaken_union (by decide) hm' hi
    · exact fun rec hrec h => Recording.exists_part (hfresh rec hrec) h
    · intro rec hrec q hq
      have hin := hmem rec hrec q hq
      exact Recording.isNotTaken_part (hfresh rec hrec) hq (hfits q hin).2 (hordered rec hrec)
        (hfits q hin).1 (hflagged q hin)
  · rw [hm.byte i hi, bytes_iff Flags.hasDirection_union (by decide),
      bytes_iff Flags.isExecuted_union (by decide)]
    rintro ⟨_, hmap, hdirection⟩
    obtain ⟨q, hq, rfl⟩ := List.mem_map.1 hmap
    obtain ⟨rec, hrec, hpart⟩ := List.mem_filterMap.1 (hparts ▸ hq)
    exact ⟨q.map, hmap,
      Recording.isExecuted_of_hasDirection (hfresh rec hrec) hpart (hfits q hq).2 hdirection⟩

end

end

/-- The verdict of a branch, end to end. The pairs of entries that follow each other in all traces
of all executables decide it, as soon as one of them shows a direction. -/
theorem reportedAt_of_run {t : Target} {format : TraceFormat} {names : List String}
    {recs : List Recording} {r : Registry} {totals : Totals} {k : String} {s : Symbol}
    {u : CoverageMap} {i : Nat} (hfresh : ∀ rec ∈ recs, rec.executable.Fresh)
    (hordered : ∀ rec ∈ recs, Ordered t rec.executable.loadAddress rec.listing)
    (hagree : Agree t (Registry.wanting names).contains recs)
    (hrun : run t format (.wanting names) recs = .ok (r, totals)) (hs : r.find? k = some s)
    (hu : s.unified = some u) (hi : i < u.size) (hbranch : (u.byte i).isBranch = true) :
    let jumped := ∃ rec ∈ recs, rec.Jumped t format (Registry.wanting names).contains k i
    let fell := ∃ rec ∈ recs, rec.FellThrough t format (Registry.wanting names).contains k i
    (jumped → fell → s.reportedAt i = BranchClass.executedBoth.reported) ∧
      (jumped → ¬ fell → s.reportedAt i = BranchClass.alwaysTaken.reported) ∧
      (¬ jumped → fell → s.reportedAt i = BranchClass.neverTaken.reported) := by
  intro jumped fell
  obtain ⟨p, rest, m, targets, hparts, hsize, hbase, hm, ha⟩ :=
    analyzed_of_run hfresh hrun hs hu
  obtain rfl := Option.some.inj (hu.symm.trans ha.unified)
  rw [size_fillPadding] at hi
  rw [isBranch_byte_fillPadding] at hbranch
  obtain ⟨hstart, htaken, hnotTaken, hran⟩ := directions_of_merged hfresh hagree hparts
    hsize hm (hm.size ▸ hi) hbranch hordered
  have hat : m.address i = UInt32.ofNat i := by
    rw [address, hm.low, UInt32.zero_add]
  -- Whatever direction was seen, the branch ran, and the directions decide.
  have hreported : jumped ∨ fell → s.reportedAt i =
      (if (m.byte i).isTaken then
        if (m.byte i).isNotTaken then BranchClass.executedBoth else .alwaysTaken
      else .neverTaken).reported := by
    intro hseen
    have hdirection : (m.byte i).hasDirection = true := by
      rw [Flags.hasDirection_eq, Bool.or_eq_true, htaken, hnotTaken]
      exact hseen
    rw [← classify_of_directions hi (hran hdirection) hdirection,
      ← uncoveredBranches_at hi (by rwa [isStartAt_eq]) hbranch s.name s.base targets,
      Symbol.reportedAt, ha.branches, hat]
  refine ⟨fun hj hf => ?_, fun hj hf => ?_, fun hj hf => ?_⟩
  · rw [hreported (.inl hj), if_pos (htaken.2 hj), if_pos (hnotTaken.2 hf)]
  · rw [hreported (.inl hj), if_pos (htaken.2 hj), if_neg fun h => hf (hnotTaken.1 h)]
  · rw [hreported (.inr hf), if_neg fun h => hj (htaken.1 h)]

theorem reportedAt_of_run_skip :
    ∃ r totals s, run i386 .pcs (.wanting ["f"]) [skipAt100, skipAt200] = .ok (r, totals) ∧
      r.find? "f" = some s ∧ s.reportedAt 0 = [] := by
  obtain ⟨r, totals, hrun⟩ : ∃ r totals,
      run i386 .pcs (.wanting ["f"]) [skipAt100, skipAt200] = .ok (r, totals) :=
    run_ok fresh_skip (by decide +kernel)
  have hfound : ((run i386 .pcs (.wanting ["f"]) [skipAt100, skipAt200]).toOption.bind
      (·.1.find? "f")).any (fun s => s.unified.any fun u =>
        decide (0 < u.size) && (u.byte 0).isBranch) = true := by
    decide +kernel
  rw [hrun] at hfound
  obtain ⟨s, hs, hunified⟩ := (Option.any_eq_true _ _).1 hfound
  obtain ⟨u, hu, hbranch⟩ := (Option.any_eq_true _ _).1 hunified
  rw [Bool.and_eq_true, decide_eq_true_eq] at hbranch
  have hagree : Agree i386 (Registry.wanting ["f"]).contains [skipAt100, skipAt200] := by
    unfold Agree
    decide +kernel
  obtain ⟨hboth, _, _⟩ := reportedAt_of_run fresh_skip (by decide +kernel) hagree hrun hs hu hbranch.1
    hbranch.2
  exact ⟨r, totals, s, hrun, hs, hboth (by decide +kernel) (by decide +kernel)⟩

end TraceCoverage.Pipeline

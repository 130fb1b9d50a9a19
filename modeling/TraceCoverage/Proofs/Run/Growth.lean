import TraceCoverage.Proofs.Run.Analysis
import TraceCoverage.Proofs.Run.History
import TraceCoverage.Proofs.Symbol.Growth

/-!
# Reports under more evidence

The same symbol is analyzed with and without one more map of its code. With it, no byte is uncovered
that was not before, and no branch loses a direction that was seen, but for branches that were judged
without any direction and of which the new map shows one only.
-/

namespace TraceCoverage

open CoverageMap Pipeline

/-! ## What an analysis reports -/

def Symbol.uncovers (s : Symbol) (a : Address) : Bool :=
  s.ranges.any fun r => (r.relative s.base).covers a

namespace Pipeline.Analyzed

variable {s : Symbol} {m : CoverageMap} {targets : TargetOffsets} (h : Analyzed s m targets)
include h

theorem uncovers_iff (a : Address) :
    s.uncovers a = true ↔ ∃ i < m.size, m.address i = a ∧ m.fillPadding.misses i = true := by
  rw [Symbol.uncovers, h.ranges, any_covers_iff, size_fillPadding,
    address_eq_of_low (low_fillPadding m)]

theorem sizeInBytes_eq : s.stats.sizeInBytes = m.size := by
  rw [h.stats, Statistics.ofSymbol, h.unified]
  exact size_fillPadding m

theorem uncoveredBytes_eq (hsize : m.size < 0x100000000) :
    s.stats.uncoveredBytes = (List.range m.size).countP m.fillPadding.misses := by
  have hbytes : s.stats.uncoveredBytes = (s.ranges.map (·.sizeInBytes.toNat)).foldr (· + ·) 0 := by
    rw [h.stats, Statistics.ofSymbol, h.unified]
  rw [hbytes, h.ranges, sum_size_uncoveredRanges _ _ (by simpa using hsize), size_fillPadding]

theorem uncoveredInstructions_eq : s.stats.uncoveredInstructions =
    m.fillPadding.starts.countP fun a => !(m.fillPadding.flagsAt a).isExecuted := by
  rw [← sum_instructions_uncoveredRanges s.name s.base, ← h.ranges, h.stats,
    Statistics.ofSymbol, h.unified]

theorem branchesUncovered_eq : s.stats.branchesUncovered =
    m.branchOffsets.countP fun i => m.verdictAt targets i != .executedBoth := by
  have hsum := Statistics.sum_countClass s.branches fun r hr =>
    kind_of_mem_uncoveredBranches (h.branches ▸ hr)
  rw [← length_uncoveredBranches s.name s.base, ← h.branches, ← hsum, h.stats,
    Statistics.branchesUncovered, Statistics.ofSymbol, h.unified]

end Pipeline.Analyzed

namespace Symbol

variable {s : Symbol} {m : CoverageMap} {targets : TargetOffsets}

theorem analyzed_concluded (h : s.marked? = some (m, targets)) :
    Analyzed (concluded s) m targets := by
  obtain ⟨u, hu, hmarked⟩ := Option.map_eq_some_iff.1 h
  have hanalyze := analyze_of_unified hu
  rw [hmarked] at hanalyze
  rw [concluded, hanalyze]
  exact ⟨rfl, rfl, rfl, rfl⟩

theorem marked?_merging (h : s.marked? = some (m, targets)) (o : CoverageMap) :
    (s.merging o).marked? = some (m.merge o, targets) := by
  obtain ⟨u, hu, hmarked⟩ := Option.map_eq_some_iff.1 h
  rw [marked?, merging, hu, Option.map_some, Option.map_some, Option.some.injEq]
  apply Prod.ext
  · rw [markLines_merge, hmarked]
  · rw [targets_markLines s.base s.lines _ u, hmarked]

theorem marked?_analyze (h : s.marked? = some (m, targets)) :
    s.analyze.marked? = some (m.fillPadding, targets) := by
  obtain ⟨u, hu, hmarked⟩ := Option.map_eq_some_iff.1 h
  rw [analyze_of_unified hu, marked?, Option.map_some, Option.some.injEq]
  apply Prod.ext
  · rw [markLines_fillPadding, hmarked]
  · rw [targets_markLines s.base s.lines _ u, hmarked]

end Symbol

namespace Registry

variable {r : Registry} {k : String} {m o : CoverageMap} {targets : TargetOffsets}

theorem exists_analyzed (h : r.marked? k = some (m, targets)) :
    ∃ s, r.analyze.count.state.find? k = some s ∧ Analyzed s m targets := by
  obtain ⟨s, hs, hm⟩ := Option.bind_eq_some_iff.1 h
  have hstate : r.analyze.count.state = conclusion r := rfl
  refine ⟨concluded s, ?_, Symbol.analyzed_concluded hm⟩
  rw [hstate, find?, getElem?_conclusion]
  exact congrArg (Option.map concluded) hs

theorem merge_of_marked? (h : r.marked? k = some (m, targets)) (o : CoverageMap) :
    (r.merge k o).result = .ok () ∧
      (r.merge k o).state.marked? k = some (m.merge o, targets) := by
  obtain ⟨s, hs, hm⟩ := Option.bind_eq_some_iff.1 h
  obtain ⟨u, hu, _⟩ := Option.map_eq_some_iff.1 hm
  refine ⟨merge_ok ⟨s, hs, by rw [hu, Option.isSome_some]⟩, ?_⟩
  rw [marked?, find?_merge, hs, Option.map_some, if_pos rfl]
  exact Symbol.marked?_merging hm o

theorem size_lt_of_marked? {operations : List Operation}
    (h : (perform {} operations).marked? k = some (m, targets)) : m.size < 0x100000000 := by
  obtain ⟨s, hs, hm⟩ := Option.bind_eq_some_iff.1 h
  obtain ⟨u, hu, hmarked⟩ := Option.map_eq_some_iff.1 hm
  have hsize : (u.markLines s.base s.lines).1.size = u.size :=
    (low_size_markLines s.base s.lines (u, ∅)).2
  rw [hmarked] at hsize
  exact hsize ▸ size_lt_of_perform hs hu

theorem marked?_after_replicate (h : r.marked? k = some (m, targets)) (n : Nat) :
    ∃ m', (r.after (List.replicate n .analyze)).marked? k = some (m', targets) ∧ m.Folds m' := by
  induction n generalizing r m with
  | zero => exact ⟨m, h, .refl m⟩
  | succ n ih =>
    obtain ⟨s, hs, hm⟩ := Option.bind_eq_some_iff.1 h
    have hanalyzed : r.analyze.marked? k = some (m.fillPadding, targets) := by
      have hfound := find?_apply r k .analyze
      rw [hs, Option.map_some] at hfound
      exact Option.bind_eq_some_iff.2 ⟨_, hfound, Symbol.marked?_analyze hm⟩
    obtain ⟨m', hm', hfolds⟩ := ih hanalyzed
    exact ⟨m', hm', (folds_fillPadding m).trans hfolds⟩

/-! ## Ranges -/

theorem percent_le_percent {part part' : Nat} (h : part ≤ part') (total : Nat) :
    percent part total ≤ percent part' total :=
  Nat.div_le_div_right (Nat.mul_le_mul_right 100 h)

/-- One more map of the same code uncovers nothing. Every address in an uncovered range lies in one
without that map as well, so there are no more uncovered bytes and instructions than without it. -/
theorem uncovers_of_merge {operations : List Operation}
    (hm : (perform {} operations).marked? k = some (m, targets)) (ho : o.WithinLayout m) :
    ((perform {} operations).merge k o).result = .ok () ∧
      ∃ less more, (perform {} operations).analyze.count.state.find? k = some less ∧
        ((perform {} operations).merge k o).state.analyze.count.state.find? k = some more ∧
        (∀ a, more.uncovers a = true → less.uncovers a = true) ∧
        more.stats.uncoveredBytes ≤ less.stats.uncoveredBytes ∧
        more.stats.uncoveredInstructions ≤ less.stats.uncoveredInstructions ∧
        less.stats.percentExecutedBytes ≤ more.stats.percentExecutedBytes := by
  obtain ⟨hok, hmerged⟩ := merge_of_marked? hm o
  obtain ⟨less, hless, hwithout⟩ := exists_analyzed hm
  obtain ⟨more, hmore, hwith⟩ := exists_analyzed hmerged
  have hsize : m.size < 0x100000000 := size_lt_of_marked? hm
  have hsize' : (m.merge o).size < 0x100000000 := by rwa [size_merge]
  have hbytes : more.stats.uncoveredBytes ≤ less.stats.uncoveredBytes := by
    rw [hwith.uncoveredBytes_eq hsize', hwithout.uncoveredBytes_eq hsize, size_merge]
    exact List.countP_mono_left fun i hi =>
      ho.misses_fillPadding_merge (List.mem_range.1 hi)
  refine ⟨hok, less, more, hless, hmore, fun a ha => ?_, hbytes, ?_, ?_⟩
  · obtain ⟨i, hi, hat, hmissed⟩ := (hwith.uncovers_iff a).1 ha
    rw [size_merge] at hi
    rw [address_eq_of_low low_merge] at hat
    exact (hwithout.uncovers_iff a).2 ⟨i, hi, hat, ho.misses_fillPadding_merge hi hmissed⟩
  · rw [hwith.uncoveredInstructions_eq, hwithout.uncoveredInstructions_eq]
    exact ho.countP_fillPadding_merge
  · rw [Statistics.percentExecutedBytes, Statistics.percentExecutedBytes, hwith.sizeInBytes_eq,
      hwithout.sizeInBytes_eq, size_merge]
    exact percent_le_percent (Nat.sub_le_sub_left hbytes m.size) m.size

def padded : List Operation :=
  [.insert "f",
    .adopt "f" 0x100
      [{ address := some 0x100, text := "inc %eax" }, { address := some 0x101, text := "ret" },
        { address := some 0x102, text := "nop", nop := some 1 }] 0,
    .mark "f" 3 []]

def entered : CoverageMap where
  low := 0x200
  flags := #[.start ||| .executed, .start, .start ||| .nop]
  nonempty := by decide
  fits := by decide

theorem uncovers_of_merge_padded :
    ∃ less more, (perform {} padded).analyze.count.state.find? "f" = some less ∧
      ((perform {} padded).merge "f" entered).state.analyze.count.state.find? "f" = some more ∧
      more.stats.uncoveredBytes = 2 ∧ more.uncovers 1 = true ∧ less.uncovers 1 = true := by
  have hmarked : ((perform {} padded).marked? "f").any (fun marked =>
      entered.WithinLayout marked.1) = true := by
    decide +kernel
  obtain ⟨⟨m, targets⟩, hm, ho⟩ := (Option.any_eq_true _ _).1 hmarked
  obtain ⟨_, less, more, hless, hmore, huncovers, _⟩ := uncovers_of_merge hm (of_decide_eq_true ho)
  have hfound : (((perform {} padded).merge "f" entered).state.analyze.count.state.find? "f").any
      (fun s => s.stats.uncoveredBytes = 2 ∧ s.uncovers 1 = true) = true := by
    decide +kernel
  rw [hmore, Option.any_some] at hfound
  obtain ⟨hbytes, hmissed⟩ := of_decide_eq_true hfound
  exact ⟨less, more, hless, hmore, hbytes, hmissed, huncovers 1 hmissed⟩

/-! ## Branches -/

theorem countP_le_countP_add {α : Type} {p q q' : α → Bool} {l : List α}
    (h : ∀ a ∈ l, p a = true → q a = true ∨ q' a = true) :
    l.countP p ≤ l.countP q + l.countP q' := by
  induction l with
  | nil => exact Nat.zero_le _
  | cons a rest ih =>
    obtain ⟨ha, hrest⟩ := List.forall_mem_cons.1 h
    have hle := ih hrest
    simp only [List.countP_cons]
    cases hp : p a <;> cases hq : q a <;> cases hq' : q' a <;> simp_all <;> omega

/-- One more map of the same code leaves a branch that went both ways as it is, unless it narrows
the branch: it shows one direction, where none was known. So there are no more uncovered branches
than before and such branches together, whether or not the registry was analyzed in between. -/
theorem verdicts_of_merge (hm : r.marked? k = some (m, targets)) (ho : o.WithinLayout m) (n : Nat) :
    ((r.after (.replicate n .analyze)).merge k o).result = .ok () ∧
      ∃ m', ((r.after (.replicate n .analyze)).merge k o).state.marked? k = some (m', targets) ∧
        m'.branchOffsets = m.branchOffsets ∧
        (∀ i ∈ m.branchOffsets, m.verdictAt targets i = .executedBoth →
          (m'.verdictAt targets i = .executedBoth ↔ m.narrows o i = false)) ∧
        ∃ less more, r.analyze.count.state.find? k = some less ∧
          ((r.after (.replicate n .analyze)).merge k o).state.analyze.count.state.find? k =
            some more ∧
          more.stats.branchesUncovered ≤ less.stats.branchesUncovered +
            m.branchOffsets.countP fun i =>
              m.verdictAt targets i == .executedBoth && m.narrows o i := by
  obtain ⟨folded, hfolded, hfolds⟩ := marked?_after_replicate hm n
  obtain ⟨hok, hmerged⟩ := merge_of_marked? hfolded o
  obtain ⟨less, hless, hbefore⟩ := exists_analyzed hm
  obtain ⟨more, hmore, hafter⟩ := exists_analyzed hmerged
  have hoffsets := branchOffsets_folds_merge hfolds ho
  have haddress : (folded.merge o).address = m.address :=
    address_eq_of_low (low_merge.trans hfolds.low_eq)
  have hverdicts : ∀ i ∈ m.branchOffsets, m.verdictAt targets i = .executedBoth →
      ((folded.merge o).verdictAt targets i = .executedBoth ↔ m.narrows o i = false) := by
    intro i hi hboth
    have hlt := List.mem_range.1 (List.mem_of_mem_filter hi)
    rw [verdictAt, haddress]
    exact both_folds_merge_iff hfolds ho hlt hboth
  refine ⟨hok, _, hmerged, hoffsets, hverdicts, less, more, hless, hmore, ?_⟩
  rw [hafter.branchesUncovered_eq, hbefore.branchesUncovered_eq, hoffsets]
  refine countP_le_countP_add fun i hi huncovered => ?_
  rw [bne_iff_ne] at huncovered
  rw [bne_iff_ne, Bool.and_eq_true, beq_iff_eq]
  by_cases hboth : m.verdictAt targets i = .executedBoth
  · rw [Ne, hverdicts i hi hboth, Bool.not_eq_false] at huncovered
    exact .inr ⟨hboth, huncovered⟩
  · exact .inl hboth

def skipRan : List Operation :=
  [.insert "f",
    .adopt "f" 0x100
      [{ address := some 0x100, text := "je 103 <f+3>", branch := some { target := some 0x103 } },
        { address := some 0x102, text := "inc %eax" }, { address := some 0x103, text := "ret" }] 0,
    .mark "f" 4 [.execute 0]]

def wentBothWays : CoverageMap where
  low := 0x200
  flags := #[.start ||| .branch ||| .executed ||| .taken ||| .notTaken, .executed,
    .start ||| .executed, .start ||| .executed]
  nonempty := by decide
  fits := by decide

theorem verdicts_of_merge_skip :
    ∃ m' targets, ((((perform {} skipRan).after [.analyze]).merge "f" wentBothWays).state.marked?
        "f") = some (m', targets) ∧ m'.branchOffsets = [0] ∧
      m'.verdictAt targets 0 = .executedBoth := by
  have hmarked : ((perform {} skipRan).marked? "f").any (fun marked =>
      wentBothWays.WithinLayout marked.1 ∧ marked.1.branchOffsets = [0] ∧
        marked.1.verdictAt marked.2 0 = .executedBoth ∧
          marked.1.narrows wentBothWays 0 = false) = true := by
    decide +kernel
  obtain ⟨⟨m, targets⟩, hm, hknown⟩ := (Option.any_eq_true _ _).1 hmarked
  obtain ⟨ho, hoffsets, hboth, hnarrows⟩ := of_decide_eq_true hknown
  obtain ⟨_, m', hm', hoffsets', hverdicts, _⟩ := verdicts_of_merge hm ho 1
  exact ⟨m', targets, hm', hoffsets'.trans hoffsets,
    (hverdicts 0 (by rw [hoffsets]; exact List.mem_singleton_self 0) hboth).2 hnarrows⟩

end Registry

namespace Pipeline

def skipApart : Recording := { skipAt100 with traces := [["100"], ["102", "103", "104"]] }

def skipTaken : Recording := { skipAt200 with traces := [["200", "204"]] }

/-- With the traces of one more executable, a branch that had nothing left to report is reported as
always taken. -/
theorem uncovered_by_more_traces :
    ∃ r totals s r' totals' s',
      run Listing.i386 .pcs (.wanting ["f"]) [skipApart] = .ok (r, totals) ∧
      r.find? "f" = some s ∧ s.branches = [] ∧ s.stats.branchesUncovered = 0 ∧
      run Listing.i386 .pcs (.wanting ["f"]) [skipApart, skipTaken] = .ok (r', totals') ∧
      r'.find? "f" = some s' ∧ s'.branches = [⟨"f", 0x100, 0x101, 1, .branch .alwaysTaken⟩] ∧
      s'.stats.branchesUncovered = 1 := by
  have hfresh : ∀ rec ∈ [skipApart, skipTaken], rec.executable.Fresh := by
    simp only [List.forall_mem_cons]
    exact ⟨⟨rfl, rfl, rfl⟩, ⟨rfl, rfl, rfl⟩, by simp⟩
  obtain ⟨r, totals, hrun⟩ : ∃ r totals,
      run Listing.i386 .pcs (.wanting ["f"]) [skipApart] = .ok (r, totals) :=
    run_ok (fun rec hrec => hfresh rec (by simp_all)) (by decide +kernel)
  obtain ⟨r', totals', hrun'⟩ : ∃ r totals,
      run Listing.i386 .pcs (.wanting ["f"]) [skipApart, skipTaken] = .ok (r, totals) :=
    run_ok hfresh (by decide +kernel)
  have hfound : ((run Listing.i386 .pcs (.wanting ["f"]) [skipApart]).toOption.bind
      (·.1.find? "f")).any (fun s => s.branches = [] ∧ s.stats.branchesUncovered = 0) = true := by
    decide +kernel
  have hfound' : ((run Listing.i386 .pcs (.wanting ["f"]) [skipApart, skipTaken]).toOption.bind
      (·.1.find? "f")).any (fun s =>
        s.branches = [⟨"f", 0x100, 0x101, 1, .branch .alwaysTaken⟩] ∧
          s.stats.branchesUncovered = 1) = true := by
    decide +kernel
  rw [hrun] at hfound
  rw [hrun'] at hfound'
  obtain ⟨s, hs, hshown⟩ := (Option.any_eq_true _ _).1 hfound
  obtain ⟨s', hs', hshown'⟩ := (Option.any_eq_true _ _).1 hfound'
  obtain ⟨hnone, hcount⟩ := of_decide_eq_true hshown
  obtain ⟨hone, hcount'⟩ := of_decide_eq_true hshown'
  exact ⟨r, totals, s, r', totals', s', hrun, hs, hnone, hcount, hrun', hs', hone, hcount'⟩

end Pipeline

end TraceCoverage

import TraceCoverage.Proofs.Run.Reanalysis
import TraceCoverage.Proofs.Symbol.Extremes

/-!
# Symbols of which everything ran

Where each instruction of a symbol ran, no range is left to report. Without recorded directions a
branch is still reported if nothing shows that it fell through, as behind the last instruction, or
if its target inside the symbol is a byte that did not run.
-/

namespace TraceCoverage

open CoverageMap

/-- The analysis of a symbol of which every instruction ran, with no recorded direction, has no
ranges. It has no branches exactly if each of them is followed. -/
theorem Registry.analyze_of_allRan {r : Registry} {k : String} {s : Symbol} {m : CoverageMap}
    {targets : TargetOffsets} (hs : r.find? k = some s) (hm : s.marked? = some (m, targets))
    (hran : m.AllRan true) (hdirection : ∀ a ∈ m.starts, (m.flagsAt a).hasDirection = false) :
    ∃ s', r.analyze.find? k = some s' ∧ s'.ranges = [] ∧
      (s'.branches = [] ↔
        ∀ a ∈ m.starts, (m.flagsAt a).isBranch = true → m.Followed a targets[a]?) := by
  have hfound : r.analyze.find? k = some s.analyze := by
    rw [find?, analyze, Std.ExtTreeMap.getElem?_map]
    exact congrArg (Option.map Symbol.analyze) hs
  obtain ⟨u, hu, hmarked⟩ := Option.map_eq_some_iff.1 hm
  rw [Symbol.analyze_of_unified hu, hmarked] at hfound
  refine ⟨_, hfound, ?_, ?_⟩
  · dsimp only
    rw [fillPadding_of_allRan hran, uncoveredRanges_of_executed hran]
  · dsimp only
    rw [uncoveredBranches_eq_nil_iff]
    exact forall₃_congr fun a ha _ => classify_eq_executedBoth_iff hran ha (hdirection a ha) _

def ranLoop : Registry :=
  let made := ((Registry.insert {} "f").unifiedMap "f" 4).state
  let adopted := made.adopt "f" 0x100
    [{ address := some 0x100, text := "dec %ecx" },
      { address := some 0x101, text := "jne 100 <f>", branch := some { target := some 0x100 } },
      { address := some 0x103, text := "ret" }] 0
  (adopted.state.merge "f"
    { low := 0x100
      flags := #[.start ||| .executed, .start ||| .executed, .executed, .start ||| .executed]
      nonempty := by decide
      fits := by decide }).state

theorem Registry.analyze_of_allRan_loop :
    ∃ s', ranLoop.analyze.find? "f" = some s' ∧ s'.ranges = [] ∧ s'.branches = [] := by
  have hfound : (ranLoop.find? "f").any (fun s => s.marked?.any fun marked =>
      marked.1.AllRan true ∧ (marked.1.starts.all fun a => !(marked.1.flagsAt a).hasDirection) ∧
        marked.1.starts.all fun a =>
          !(marked.1.flagsAt a).isBranch || marked.1.Followed a marked.2[a]?) = true := by
    decide +kernel
  obtain ⟨s, hs, hmarked⟩ := (Option.any_eq_true _ _).1 hfound
  obtain ⟨⟨m, targets⟩, hm, hall⟩ := (Option.any_eq_true _ _).1 hmarked
  obtain ⟨hran, hdirection, hfollowed⟩ := of_decide_eq_true hall
  obtain ⟨s', hs', hranges, hbranches⟩ :=
    analyze_of_allRan hs hm hran (by simpa using List.all_eq_true.1 hdirection)
  refine ⟨s', hs', hranges, hbranches.2 fun a ha hbranch => ?_⟩
  have := List.all_eq_true.1 hfollowed a ha
  simpa [hbranch] using this

namespace Pipeline

def fallsOut : Recording where
  executable := { id := 0, file := "a.exe" }
  listing :=
    ["100 <f>:", "100:\tinc %eax", "101:\tje 200 <h>", "103 <g>:", "103:\tret", "104 <h>:"]
  traces := [["100", "101", "103"]]

/-- Everything ran, and the branch is reported as always taken, though it fell through. -/
theorem reported_when_all_ran :
    ∃ r totals s u, run Listing.i386 .pcs (.wanting ["f"]) [fallsOut] = .ok (r, totals) ∧
      r.find? "f" = some s ∧ s.unified = some u ∧ u.AllRan true ∧
      (∀ a ∈ u.starts, (u.flagsAt a).hasDirection = false) ∧ s.ranges = [] ∧
      s.branches = [⟨"f", 0x101, 0x102, 1, .branch .alwaysTaken⟩] := by
  obtain ⟨r, totals, hrun⟩ : ∃ r totals,
      run Listing.i386 .pcs (.wanting ["f"]) [fallsOut] = .ok (r, totals) :=
    run_ok (by simpa using ⟨rfl, rfl, rfl⟩) (by decide +kernel)
  have hfound : ((run Listing.i386 .pcs (.wanting ["f"]) [fallsOut]).toOption.bind
      (·.1.find? "f")).any (fun s => s.unified.any fun u =>
        u.AllRan true ∧ (u.starts.all fun a => !(u.flagsAt a).hasDirection) ∧ s.ranges = [] ∧
          s.branches = [⟨"f", 0x101, 0x102, 1, .branch .alwaysTaken⟩]) = true := by
    decide +kernel
  rw [hrun] at hfound
  obtain ⟨s, hs, hunified⟩ := (Option.any_eq_true _ _).1 hfound
  obtain ⟨u, hu, hshown⟩ := (Option.any_eq_true _ _).1 hunified
  obtain ⟨hran, hdirection, hreported⟩ := of_decide_eq_true hshown
  exact ⟨r, totals, s, u, hrun, hs, hu, hran, by simpa using List.all_eq_true.1 hdirection,
    hreported⟩

end Pipeline

end TraceCoverage

import TraceCoverage.Proofs.Run.Analysis
import TraceCoverage.Proofs.Symbol.Padding

/-!
# The order of executables and traces

Adoption lets the first executable place a symbol, so a run looks at the order of its inputs. What
comes out does not, but for the place and the text of a symbol, as long as the executables show it
in one shape.
-/

namespace TraceCoverage

open CoverageMap Listing

namespace Executable

variable {e e' fresh fresh' : Executable} {symbols : List ResolvedSymbol}

theorem Built.unique (h : fresh.Built symbols e) (h' : fresh'.Built symbols e') :
    e.symbols = e'.symbols ∧ e.maps = e'.maps ∧ e.targets = e'.targets := by
  refine ⟨h.table.trans h'.table.symm, ?_, ?_⟩
  · apply Std.ExtTreeMap.ext_getElem?
    intro k
    exact Option.ext fun m => h.getElem?_maps_iff.trans h'.getElem?_maps_iff.symm
  · apply Std.ExtTreeMap.ext_getElem?
    intro a
    exact (h.target a).trans (h'.target a).symm

theorem evidences_congr (hsymbols : e.symbols = e'.symbols) (hmaps : e.maps = e'.maps)
    (htargets : e.targets = e'.targets) (traces : List (List TraceEntry)) :
    e.evidences traces = e'.evidences traces := by
  obtain ⟨_, _, _, _, _, _, _⟩ := e
  obtain ⟨_, _, _, _, _, _, _⟩ := e'
  simp only at hsymbols hmaps htargets
  subst hsymbols hmaps htargets
  rfl

open Classical in
theorem evidences_perm {traces traces' : List (List TraceEntry)} (h : traces.Perm traces') :
    e.evidences traces = e.evidences traces' := by
  have hentries : ∀ x, x ∈ traces.flatten ↔ x ∈ traces'.flatten := fun x => h.flatten.mem_iff
  have hpairs : ∀ p, p ∈ traces.flatMap List.consecutivePairs ↔
      p ∈ traces'.flatMap List.consecutivePairs := fun p => (h.flatMap_right _).mem_iff
  funext name k
  simp only [evidences, shown, hentries, hpairs]

end Executable

namespace Pipeline

/-- One executable at two places among the inputs, with its traces in two orders. -/
structure Recording.Same (rec rec' : Recording) : Prop where
  executable : rec'.executable = { rec.executable with id := rec'.executable.id }
  listing : rec'.listing = rec.listing
  traces : rec.traces.Perm rec'.traces

def Reordered (recs recs' : List Recording) : Prop :=
  ∃ moved, recs.Perm moved ∧ List.Forall₂ Recording.Same moved recs'

end Pipeline

/-- The symbol as the executable has it that placed it. -/
def Symbol.placed? (s : Symbol) : Option ResolvedSymbol :=
  s.unified.map fun m =>
    { name := s.name, base := s.base, size := UInt32.ofNat m.size, lines := s.lines }

/-- Symbols that differ in their places and the texts of their lines only. -/
structure Symbol.Alike (s s' : Symbol) : Prop where
  name : s.name = s'.name
  resolved : s.isResolved = s'.isResolved
  shape : s.placed?.map (·.shape) = s'.placed?.map (·.shape)
  unified : s.unified = s'.unified
  stats : s.stats = s'.stats
  ranges : s.ranges.map (·.relative s.base) = s'.ranges.map (·.relative s'.base)
  branches : s.branches.map (·.relative s.base) = s'.branches.map (·.relative s'.base)

theorem Symbol.Alike.refl (s : Symbol) : s.Alike s := ⟨rfl, rfl, rfl, rfl, rfl, rfl, rfl⟩

namespace Pipeline

variable {t : Target} {format : TraceFormat} {wanted : String → Bool} {name : String}

def Part.essence (p : Part) : ResolvedSymbol × CoverageMap := (p.symbol, p.map)

namespace Recording

variable {rec rec' : Recording}

theorem Same.fresh (h : rec.Same rec') (hrec : rec.executable.Fresh) : rec'.executable.Fresh := by
  rw [h.executable]
  exact ⟨hrec.symbols, hrec.maps, hrec.targets⟩

theorem Same.symbols_eq (h : rec.Same rec') : rec'.symbols t wanted = rec.symbols t wanted := by
  rw [symbols, symbols, h.executable, h.listing]

theorem Same.maps_traced (h : rec.Same rec') (hrec : rec.executable.Fresh) :
    (rec'.traced t format wanted).maps = (rec.traced t format wanted).maps := by
  have hb := built_spec t wanted hrec
  have hb' := built_spec t wanted (h.fresh hrec)
  rw [h.symbols_eq] at hb'
  obtain ⟨hsymbols, hmaps, htargets⟩ := hb.unique hb'
  have hentries : (rec.entries format).Perm (rec'.entries format) := h.traces.map _
  rw [traced_eq, traced_eq, Executable.mark, Executable.mark,
    ← Executable.evidences_congr hsymbols hmaps htargets, Executable.evidences_perm hentries, hmaps]

theorem Same.part? (h : rec.Same rec') (hrec : rec.executable.Fresh) :
    (rec'.part? t format wanted name).map Part.essence =
      (rec.part? t format wanted name).map Part.essence := by
  unfold Recording.part?
  rw [h.symbols_eq, h.maps_traced hrec]
  cases (rec.symbols t wanted).find? (·.name == name) <;>
    cases (rec.traced t format wanted).maps[name]? <;> rfl

end Recording

theorem Reordered.exists_same {recs recs' : List Recording} (h : Reordered recs recs') :
    ∀ rec' ∈ recs', ∃ rec ∈ recs, rec.Same rec' := by
  obtain ⟨moved, hperm, hsame⟩ := h
  have hmoved : ∀ rec' ∈ recs', ∃ rec ∈ moved, rec.Same rec' := by
    clear hperm
    induction hsame with
    | nil => simp
    | cons hrec _ ih =>
      rw [List.forall_mem_cons]
      refine ⟨⟨_, List.mem_cons_self, hrec⟩, fun rec' hrec' => ?_⟩
      obtain ⟨rec, hmem, hs⟩ := ih rec' hrec'
      exact ⟨rec, List.mem_cons_of_mem _ hmem, hs⟩
  intro rec' hrec'
  obtain ⟨rec, hrec, hs⟩ := hmoved rec' hrec'
  exact ⟨rec, hperm.mem_iff.2 hrec, hs⟩

theorem essence_parts_perm {recs recs' : List Recording} (h : Reordered recs recs')
    (hfresh : ∀ rec ∈ recs, rec.executable.Fresh) :
    ((parts t format wanted recs name).map Part.essence).Perm
      ((parts t format wanted recs' name).map Part.essence) := by
  obtain ⟨moved, hperm, hsame⟩ := h
  have hmoved : ∀ rec ∈ moved, rec.executable.Fresh := fun rec hrec =>
    hfresh rec (hperm.mem_iff.2 hrec)
  refine ((hperm.filterMap _).map _).trans (List.Perm.of_eq ?_)
  rw [List.map_filterMap]
  clear hperm
  induction hsame with
  | nil => rfl
  | cons hrec _ ih =>
    rw [List.forall_mem_cons] at hmoved
    rw [parts, List.map_filterMap, List.filterMap_cons, List.filterMap_cons,
      hrec.part? hmoved.1, ih hmoved.2, parts, List.map_filterMap]

theorem filter_target {p : Part} {n : Nat} {m : CoverageMap} {targets : TargetOffsets} {a : Address}
    (hm : m.low = 0) (hn : m.size = n) (htakes : p.symbol.Takes n)
    (hun : p.symbol.Unshadowed)
    (htargets : ∀ o, targets[o]? = targetOffset? p.symbol.base p.symbol.lines o)
    (ha : a ∈ m.starts) :
    targets[a]?.filter m.contains = LineShape.targetAt? p.symbol.shape a := by
  have hcontains : m.contains = fun o => decide (o.toNat < n) := by
    funext o
    rw [Bool.eq_iff_iff, contains_iff, hm, hn]
    simp
  obtain ⟨i, hi, _, rfl⟩ := mem_starts.1 ha
  have hlt : (m.address i).toNat < n := by
    rw [toNat_address hi, hm, ← hn]
    simpa using hi
  rw [hcontains, htargets, ResolvedSymbol.targetOffset?_filter htakes hun hlt]

theorem placed?_concluded {p : Part} (rest : List Part) (hp : p.Sound) (hsize : p.symbol.size ≠ 0) :
    (concluded (assembled p.symbol.name (p :: rest))).placed? = some p.symbol := by
  obtain ⟨m, targets, hm, _, hanalyze⟩ := analyze_assembled rest hp hsize p.symbol.name
  rw [concluded, Symbol.placed?, hanalyze]
  simp only [Option.map_some, size_fillPadding, hm.size, UInt32.ofNat_toNat]
  rfl

theorem alike_concluded {s s' : Symbol} (hname : s.analyze.name = s'.analyze.name)
    (hresolved : s.analyze.isResolved = s'.analyze.isResolved)
    (hshape : (concluded s).placed?.map (·.shape) = (concluded s').placed?.map (·.shape))
    (hunified : s.analyze.unified = s'.analyze.unified)
    (hranges : s.analyze.ranges.map (·.relative s.analyze.base) =
      s'.analyze.ranges.map (·.relative s'.analyze.base))
    (hbranches : s.analyze.branches.map (·.relative s.analyze.base) =
      s'.analyze.branches.map (·.relative s'.analyze.base)) :
    (concluded s).Alike (concluded s') :=
  ⟨hname, hresolved, hshape, hunified, Statistics.ofSymbol_congr hunified hranges hbranches,
    hranges, hbranches⟩

/-- Symbols are alike if their parts have the same maps in some order, and the first ones place
them in the same shape. -/
theorem alike_of_perm {p p' : Part} {rest rest' : List Part} (hp : p.Sound) (hp' : p'.Sound)
    (hmaps : ((p :: rest).map (·.map)).Perm ((p' :: rest').map (·.map)))
    (hname : p.symbol.name = p'.symbol.name) (hsize : p.symbol.size ≠ 0)
    (hsizes : p.symbol.size = p'.symbol.size) (hshapes : p.symbol.shape = p'.symbol.shape)
    (hun : p.symbol.Unshadowed) (hun' : p'.symbol.Unshadowed) :
    (concluded (assembled p.symbol.name (p :: rest))).Alike
      (concluded (assembled p'.symbol.name (p' :: rest'))) := by
  have hsize' : p'.symbol.size ≠ 0 := hsizes ▸ hsize
  have hplaced := placed?_concluded rest hp hsize
  have hplaced' := placed?_concluded rest' hp' hsize'
  obtain ⟨m, targets, hm, htargets, hanalyze⟩ :=
    analyze_assembled rest hp hsize p.symbol.name
  obtain ⟨m', targets', hm', htargets', hanalyze'⟩ :=
    analyze_assembled rest' hp' hsize' p'.symbol.name
  have htakes := hp.takes
  have htakes' := hp'.takes
  rw [hp.size_eq hsize] at htakes
  rw [hp'.size_eq hsize', ← hsizes] at htakes'
  rw [← hsizes] at hm'
  obtain rfl : m = m' := hm.eq_of_perm hm' hmaps
  have hbranches : m.uncoveredBranches p.symbol.name 0 targets =
      m.uncoveredBranches p.symbol.name 0 targets' := by
    apply uncoveredBranches_congr
    intro a ha
    rw [filter_target hm.low hm.size htakes hun htargets ha,
      filter_target hm.low hm.size htakes' hun' htargets' ha, hshapes]
  -- Seen from the base of each symbol, both reports are the one at base 0.
  have hr : (m.fillPadding.uncoveredRanges p.symbol.name p.symbol.base).map
        (·.relative p.symbol.base) =
      (m.fillPadding.uncoveredRanges p'.symbol.name p'.symbol.base).map
        (·.relative p'.symbol.base) := by
    rw [uncoveredRanges_relative, uncoveredRanges_relative, hname]
  have hb : (m.uncoveredBranches p.symbol.name p.symbol.base targets).map
        (·.relative p.symbol.base) =
      (m.uncoveredBranches p'.symbol.name p'.symbol.base targets').map
        (·.relative p'.symbol.base) := by
    rw [uncoveredBranches_relative, uncoveredBranches_relative, hbranches, hname]
  have hshape : (concluded (assembled p.symbol.name (p :: rest))).placed?.map (·.shape) =
      (concluded (assembled p'.symbol.name (p' :: rest'))).placed?.map (·.shape) := by
    rw [hplaced, hplaced', Option.map_some, Option.map_some, hshapes]
  refine alike_concluded ?name ?resolved hshape ?unified ?ranges ?branches
  case name =>
    rw [hanalyze, hanalyze']
    exact hname
  case resolved =>
    rw [hanalyze, hanalyze']
    rfl
  case unified => rw [hanalyze, hanalyze']
  case ranges =>
    rw [hanalyze, hanalyze']
    exact hr
  case branches =>
    rw [hanalyze, hanalyze']
    exact hb

theorem alike_parts {recs recs' : List Recording} (h : Reordered recs recs')
    (hfresh : ∀ rec ∈ recs, rec.executable.Fresh) (hagree : Agree t wanted recs)
    (hun : ∀ rec ∈ recs, ∀ s ∈ rec.symbols t wanted, s.Unshadowed)
    (hsize : ∀ rec ∈ recs, ∀ s ∈ rec.symbols t wanted, s.size ≠ 0) (k : String) :
    (concluded (assembled k (parts t format wanted recs k))).Alike
      (concluded (assembled k (parts t format wanted recs' k))) := by
  have hperm : ((parts t format wanted recs k).map Part.essence).Perm _ :=
    essence_parts_perm h hfresh
  have hmem : ∀ p ∈ parts t format wanted recs k, _ := fun p hp => mem_parts hfresh hp
  have hsound : ∀ p ∈ parts t format wanted recs k, p.Sound := fun p hp =>
    sound_of_mem_parts hfresh hp
  generalize parts t format wanted recs k = ps at hperm hmem hsound
  generalize parts t format wanted recs' k = ps' at hperm
  cases ps with
  | nil =>
    have hnil : ps' = [] := by simpa using hperm.symm.eq_nil
    rw [hnil]
    exact .refl _
  | cons p rest =>
    cases ps' with
    | nil => simpa using hperm.eq_nil
    | cons p' rest' =>
      -- The part that comes first in the other order is one of these parts.
      obtain ⟨q, hq, heq⟩ := List.mem_map.1
        (hperm.mem_iff.2 (List.mem_map_of_mem (List.mem_cons_self (a := p') (l := rest'))))
      obtain ⟨hsymbol, hmap⟩ : q.symbol = p'.symbol ∧ q.map = p'.map :=
        ⟨congrArg Prod.fst heq, congrArg Prod.snd heq⟩
      have hsound' : p'.Sound := by
        obtain ⟨m, g, hdraws⟩ := hsound q hq
        exact ⟨m, g, hsymbol ▸ hmap ▸ hdraws⟩
      obtain ⟨rec, hrec, hp, hname⟩ := hmem p List.mem_cons_self
      obtain ⟨rec', hrec', hp', hname'⟩ := hmem q hq
      rw [hsymbol] at hp' hname'
      obtain ⟨hsizes, hshapes⟩ := hagree rec hrec rec' hrec' _ hp _ hp' (hname.trans hname'.symm)
      have hmaps : ((p :: rest).map (·.map)).Perm ((p' :: rest').map (·.map)) := by
        have := hperm.map Prod.snd
        rwa [List.map_map, List.map_map] at this
      have halike := alike_of_perm (hsound p List.mem_cons_self) hsound' hmaps
        (hname.trans hname'.symm) (hsize rec hrec _ hp) hsizes hshapes (hun rec hrec _ hp)
        (hun rec' hrec' _ hp')
      rwa [hname, hname'] at halike

/-- A run does not depend on the order of its inputs and of their traces: both orders succeed with
the same totals, and with symbols that differ in place and text only. -/
theorem run_reordered {names : List String} {recs recs' : List Recording}
    (h : Reordered recs recs') (hfresh : ∀ rec ∈ recs, rec.executable.Fresh)
    (hagree : Agree t (Registry.wanting names).contains recs)
    (hun : ∀ rec ∈ recs, ∀ s ∈ rec.symbols t (Registry.wanting names).contains, s.Unshadowed)
    (hsize : ∀ rec ∈ recs, ∀ s ∈ rec.symbols t (Registry.wanting names).contains, s.size ≠ 0) :
    ∃ r r' totals, run t format (.wanting names) recs = .ok (r, totals) ∧
      run t format (.wanting names) recs' = .ok (r', totals) ∧
      ∀ k, Option.Rel Symbol.Alike (r.find? k) (r'.find? k) := by
  have hfresh' : ∀ rec' ∈ recs', rec'.executable.Fresh := by
    intro rec' hrec'
    obtain ⟨rec, hrec, hsame⟩ := h.exists_same rec' hrec'
    exact hsame.fresh (hfresh rec hrec)
  have hsize' : ∀ rec' ∈ recs', ∀ s ∈ rec'.symbols t (Registry.wanting names).contains,
      s.size ≠ 0 := by
    intro rec' hrec' s hs
    obtain ⟨rec, hrec, hsame⟩ := h.exists_same rec' hrec'
    exact hsize rec hrec s (hsame.symbols_eq ▸ hs)
  obtain ⟨r, totals, hrun⟩ : ∃ r totals, run t format _ recs = .ok (r, totals) :=
    run_ok hfresh hsize
  obtain ⟨r', totals', hrun'⟩ : ∃ r' totals', run t format _ recs' = .ok (r', totals') :=
    run_ok hfresh' hsize'
  obtain ⟨rfl, hr⟩ := run_of_ok hfresh hrun
  obtain ⟨rfl, hr'⟩ := run_of_ok hfresh' hrun'
  have halike : ∀ k, (concluded (assembled k (parts t format _ recs k))).Alike _ := fun k =>
    alike_parts h hfresh hagree hun hsize k
  have htotals : r.totals = r'.totals := by
    apply Registry.totals_congr
    intro k
    rw [hr, hr']
    split
    next => rw [Option.map_some, Option.map_some, Symbol.digest, Symbol.digest,
      (halike k).resolved, (halike k).stats]
    next => rfl
  refine ⟨r, r', r.totals, hrun, htotals ▸ hrun', fun k => ?_⟩
  rw [Registry.find?, Registry.find?, hr, hr']
  split
  next => exact .some (halike k)
  next => exact .none

/-! ## Instances -/

def skipAt100Later : Recording where
  executable := { id := 2, file := "a.exe" }
  listing := skipAt100.listing
  traces := [["100"], ["100", "104"]]

theorem run_reordered_skip :
    ∃ r r' totals, run i386 .pcs (.wanting ["f"]) [skipAt100, skipAt200] = .ok (r, totals) ∧
      run i386 .pcs (.wanting ["f"]) [skipAt200, skipAt100Later] = .ok (r', totals) ∧
      ∀ k, Option.Rel Symbol.Alike (r.find? k) (r'.find? k) := by
  apply run_reordered
  · exact ⟨[skipAt200, skipAt100], .swap _ _ _,
      .cons ⟨rfl, rfl, .refl _⟩ (.cons ⟨rfl, rfl, .swap _ _ _⟩ .nil)⟩
  · exact fresh_skip
  · unfold Agree
    decide +kernel
  · decide +kernel
  · decide +kernel

def listedTwice (second : String) : List String :=
  ["100 <f>:", "100:\tje 104 <f+4>", "100:\tje " ++ second, "102:\tinc %eax", "103:\tinc %eax",
   "104:\tret", "105 <g>:"]

def leaving : Recording where
  executable := { id := 0, file := "a.exe" }
  listing := listedTwice "200 <h>"
  traces := [["100", "0", "102"]]

def computed : Recording where
  executable := { id := 1, file := "b.exe" }
  listing := listedTwice "*%eax"
  traces := []

/-- A target behind the end of the symbol hides the target inside that was listed before it, and a
target that is not shown hides nothing. So it counts which of the two listings comes first. -/
theorem order_counts_when_shadowed :
    (∀ rec ∈ [leaving, computed], rec.executable.Fresh) ∧
      Agree i386 (Registry.wanting ["f"]).contains [leaving, computed] ∧
      (∀ rec ∈ [leaving, computed],
        ∀ s ∈ rec.symbols i386 (Registry.wanting ["f"]).contains, s.size ≠ 0) ∧
      Reordered [leaving, computed] [computed, leaving] ∧
      (run i386 .pcs (.wanting ["f"]) [leaving, computed]).toOption.map
        (·.2.stats.branchesNeverTaken) = some 0 ∧
      (run i386 .pcs (.wanting ["f"]) [computed, leaving]).toOption.map
        (·.2.stats.branchesNeverTaken) = some 1 := by
  refine ⟨?_, ?_, ?_, ?_, ?_, ?_⟩
  · simp only [List.forall_mem_cons]
    exact ⟨⟨rfl, rfl, rfl⟩, ⟨rfl, rfl, rfl⟩, by simp⟩
  · unfold Agree
    decide +kernel
  · decide +kernel
  · exact ⟨[computed, leaving], .swap _ _ _,
      .cons ⟨rfl, rfl, .refl _⟩ (.cons ⟨rfl, rfl, .refl _⟩ .nil)⟩
  · decide +kernel
  · decide +kernel

end Pipeline

end TraceCoverage

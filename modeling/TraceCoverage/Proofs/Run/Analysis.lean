import TraceCoverage.Proofs.Run.Parts
import TraceCoverage.Proofs.Symbol.Relative

/-!
# The analysis of a symbol of a run

The first part placed the symbol, and its flags are in its own map already. Marking the unified map
with the lines of that part therefore changes nothing, and the analysis is one of the merged maps.
-/

namespace TraceCoverage

open CoverageMap

namespace ResolvedSymbol

variable {s : ResolvedSymbol} {m : CoverageMap}

theorem Draws.takes (h : s.Draws m) : s.Takes m.size where
  pos := m.size_pos
  last := by rw [← h.high, toNat_high, h.low]
  fits := h.low ▸ m.low_add_size_le

theorem Draws.size_eq (h : s.Draws m) (hsize : s.size ≠ 0) : m.size = s.size.toNat := by
  have hlast := h.takes.last
  have hpos := h.takes.pos
  have hfits := h.takes.fits
  have hnat : s.size.toNat ≠ 0 := fun hz => hsize (UInt32.toNat_inj.1 hz)
  have hsub : (s.size - 1).toNat = s.size.toNat - 1 := Address.toNat_sub_one hsize
  have hlt := s.size.toNat_lt
  have hbase := s.base.toNat_lt
  rw [ResolvedSymbol.last, UInt32.toNat_add, hsub] at hlast
  omega

end ResolvedSymbol

namespace Pipeline

def Part.Sound (p : Part) : Prop :=
  ∃ m g, p.symbol.Draws m ∧ (∀ i, (g i).isStart = false ∧ (g i).isBranch = false) ∧
    p.map = m.mark g

section

variable {t : Target} {format : TraceFormat} {wanted : String → Bool} {recs : List Recording}
  {name : String} {p : Part}

theorem sound_of_mem_parts (hfresh : ∀ rec ∈ recs, rec.executable.Fresh)
    (hp : p ∈ parts t format wanted recs name) : p.Sound := by
  obtain ⟨rec, hrec, hpart⟩ := List.mem_filterMap.1 hp
  obtain ⟨_, _, _, m, _, hdraws, hmap⟩ := Recording.part?_eq_some (hfresh rec hrec) hpart
  exact ⟨m, _, hdraws, fun i => Executable.inert_shown _ _ name i, hmap⟩

end

namespace Part

variable {p : Part}

theorem Sound.takes (h : p.Sound) : p.symbol.Takes p.map.size := by
  obtain ⟨m, g, hdraws, _, hmap⟩ := h
  rw [hmap, size_mark]
  exact hdraws.takes

theorem Sound.size_eq (h : p.Sound) (hsize : p.symbol.size ≠ 0) :
    p.map.size = p.symbol.size.toNat := by
  obtain ⟨m, g, hdraws, _, hmap⟩ := h
  rw [hmap, size_mark]
  exact hdraws.size_eq hsize

theorem Sound.byte_union (h : p.Sound) {i : Nat} (hi : i < p.map.size) :
    (p.map.byte i).union (CodeLine.flagsAt p.symbol.lines (p.symbol.base + UInt32.ofNat i)) =
      p.map.byte i := by
  obtain ⟨m, g, hdraws, _, hmap⟩ := h
  rw [hmap, size_mark] at hi
  have hlines : m.byte i =
      CodeLine.flagsAt p.symbol.lines (p.symbol.base + UInt32.ofNat i) := by
    rw [hdraws.byte i hi, address, hdraws.low]
  rw [hmap, byte_mark _ hi, ← hlines, Flags.union_right_comm, Flags.union_self]

theorem Sound.isBranch_iff (h : p.Sound) {i : Nat} (hi : i < p.map.size) :
    (p.map.byte i).isBranch = true ↔
      ∃ x ∈ p.symbol.shape, x.offset = UInt32.ofNat i ∧ x.branch = true := by
  obtain ⟨m, g, hdraws, hg, hmap⟩ := h
  rw [hmap, size_mark] at hi
  rw [← ResolvedSymbol.isBranch_flagsAt_iff, hmap, byte_mark _ hi, Flags.isBranch_union, (hg i).2,
    Bool.or_false, hdraws.byte i hi, address, hdraws.low]

theorem Sound.isStart_of_isBranch (h : p.Sound) {i : Nat} (hi : i < p.map.size)
    (hbranch : (p.map.byte i).isBranch = true) : (p.map.byte i).isStart = true := by
  obtain ⟨m, g, hdraws, hg, hmap⟩ := h
  rw [hmap, size_mark] at hi
  rw [hmap, byte_mark _ hi, Flags.isBranch_union, (hg i).2, Bool.or_false, hdraws.byte i hi,
    CodeLine.isBranch_flagsAt] at hbranch
  obtain ⟨l, hl, haddress, _⟩ := hbranch
  rw [hmap, byte_mark _ hi, Flags.isStart_union, hdraws.byte i hi, Bool.or_eq_true,
    CodeLine.isStart_flagsAt]
  exact .inl ⟨l, hl, haddress⟩

end Part

/-- The analysis of a symbol is one of the merged maps of its parts. -/
theorem analyze_assembled {p : Part} (rest : List Part) (hp : p.Sound) (hsize : p.symbol.size ≠ 0)
    (name : String) :
    ∃ m targets, Unifies ((p :: rest).map (·.map)) p.symbol.size.toNat m ∧
      (∀ o, targets[o]? = targetOffset? p.symbol.base p.symbol.lines o) ∧
      (assembled name (p :: rest)).analyze =
        { assembled name (p :: rest) with
          unified := some m.fillPadding
          branches := m.uncoveredBranches name p.symbol.base targets
          ranges := m.fillPadding.uncoveredRanges name p.symbol.base } := by
  obtain ⟨blank, hblank⟩ := ofSize_ok hsize
  have hunifies := unifies_foldl_merge ((p :: rest).map (·.map)) hblank
  generalize hm : ((p :: rest).map (·.map)).foldl merge blank = m at hunifies
  have htake := hp.takes
  rw [hp.size_eq hsize] at htake
  have hmarked : (m.markLines p.symbol.base p.symbol.lines).1 = m := by
    obtain ⟨hlow, hlength⟩ := low_size_markLines p.symbol.base p.symbol.lines (m, ∅)
    apply ext_byte hlow hlength
    intro i hi
    have hi' : i < m.size := hlength ▸ hi
    have hin : i < p.symbol.size.toNat := hunifies.size ▸ hi'
    have hbyte := byte_foldl_markLine p.symbol.lines (m, ∅) hunifies.low hi'
      (hunifies.size ▸ htake.fits)
    refine hbyte.trans ?_
    rw [hunifies.byte i hin, bytes, List.map_cons, List.foldr_cons, Flags.union_right_comm,
      hp.byte_union (hp.size_eq hsize ▸ hin)]
  have hunified : (assembled name (p :: rest)).unified = some m := by
    rw [← hm, List.foldl_map, assembled, hblank]
    rfl
  refine ⟨m, (m.markLines p.symbol.base p.symbol.lines).2, hunifies, fun o => ?_, ?_⟩
  · refine (getElem?_foldl_markLine o).trans ?_
    simp
  · have hname : (assembled name (p :: rest)).name = name := rfl
    have hbase : (assembled name (p :: rest)).base = p.symbol.base := rfl
    have hlines : (assembled name (p :: rest)).lines = p.symbol.lines := rfl
    unfold Symbol.analyze
    rw [hunified]
    simp only [hname, hbase, hlines, hmarked]

/-- Executables that have a symbol of one name have it in one size and shape. -/
def Agree (t : Target) (wanted : String → Bool) (recs : List Recording) : Prop :=
  ∀ rec ∈ recs, ∀ rec' ∈ recs, ∀ s ∈ rec.symbols t wanted, ∀ s' ∈ rec'.symbols t wanted,
    s.name = s'.name → s.size = s'.size ∧ s.shape = s'.shape

/-! ## The symbols of a run -/

theorem Agree.parts {t : Target} {format : TraceFormat} {wanted : String → Bool}
    {recs : List Recording} {name : String} {p q : Part} (h : Agree t wanted recs)
    (hfresh : ∀ rec ∈ recs, rec.executable.Fresh) (hp : p ∈ parts t format wanted recs name)
    (hq : q ∈ parts t format wanted recs name) :
    p.symbol.size = q.symbol.size ∧ p.symbol.shape = q.symbol.shape := by
  obtain ⟨rec, hrec, hmem, hname⟩ := mem_parts hfresh hp
  obtain ⟨rec', hrec', hmem', hname'⟩ := mem_parts hfresh hq
  exact h rec hrec rec' hrec' _ hmem _ hmem' (hname.trans hname'.symm)

/-- What the analysis leaves of a symbol whose parts were merged into `merged`. -/
structure Analyzed (s : Symbol) (merged : CoverageMap) (targets : TargetOffsets) : Prop where
  unified : s.unified = some merged.fillPadding
  branches : s.branches = merged.uncoveredBranches s.name s.base targets
  ranges : s.ranges = merged.fillPadding.uncoveredRanges s.name s.base
  stats : s.stats = .ofSymbol s

theorem exists_unified_of_run {t : Target} {format : TraceFormat} {names : List String}
    {recs : List Recording} {r : Registry} {totals : Totals} {k : String} {s : Symbol}
    (hfresh : ∀ rec ∈ recs, rec.executable.Fresh)
    (hrun : run t format (.wanting names) recs = .ok (r, totals)) (hs : r.find? k = some s)
    (hres : s.isResolved = true) : ∃ u, s.unified = some u := by
  obtain ⟨hadopt, _⟩ := (run_eq_ok_iff hfresh).1 hrun
  have hsettled := (symbols_adoptAll (settled_wanting names) hadopt).2
  have hadopted := adoptAll_of_ok hfresh format (settled_wanting names) hadopt k
  rw [Registry.find?, (run_of_ok hfresh hrun).2 k] at hs
  split at hs
  next hk =>
    obtain rfl := Option.some.inj hs
    rw [getElem?_wanting, if_pos hk, Option.map_some] at hadopted
    generalize parts t format (Registry.wanting names).contains recs k = ps at hres hadopted
    cases ps with
    | nil => cases hres
    | cons p rest =>
      rw [foldl_adopting_cons] at hadopted
      obtain ⟨blank, hblank⟩ : ∃ blank, (CoverageMap.ofSize p.symbol.size).toOption = some blank :=
        Option.isSome_iff_exists.1 (hsettled k _ hadopted rfl)
      have hunified : (assembled k (p :: rest)).unified =
          some ((p :: rest).foldl (fun m q => m.merge q.map) blank) := by
        rw [assembled, hblank]
        rfl
      exact ⟨_, by rw [concluded, Symbol.analyze, hunified]⟩
  next => cases hs

theorem analyzed_of_run {t : Target} {format : TraceFormat} {names : List String}
    {recs : List Recording} {r : Registry} {totals : Totals} {k : String} {s : Symbol}
    {u : CoverageMap} (hfresh : ∀ rec ∈ recs, rec.executable.Fresh)
    (hrun : run t format (.wanting names) recs = .ok (r, totals)) (hs : r.find? k = some s)
    (hu : s.unified = some u) :
    ∃ p rest merged targets,
      parts t format (Registry.wanting names).contains recs k = p :: rest ∧
      p.symbol.size ≠ 0 ∧ s.base = p.symbol.base ∧
      Unifies ((p :: rest).map (·.map)) p.symbol.size.toNat merged ∧ Analyzed s merged targets := by
  rw [Registry.find?, (run_of_ok hfresh hrun).2 k] at hs
  split at hs
  next =>
    cases hs
    have hsound : ∀ p ∈ parts t format (Registry.wanting names).contains recs k, p.Sound :=
      fun p hp => sound_of_mem_parts hfresh hp
    generalize parts t format (Registry.wanting names).contains recs k = ps at hu hsound
    cases ps with
    | nil => cases hu
    | cons p rest =>
      have hsize : p.symbol.size ≠ 0 := by
        intro hzero
        have hnone : (assembled k (p :: rest)).unified = none := by
          rw [assembled, hzero]
          rfl
        rw [concluded, Symbol.analyze, hnone] at hu
        exact absurd (hnone.symm.trans hu) (by simp)
      obtain ⟨m, targets, hm, _, hanalyze⟩ :=
        analyze_assembled rest (hsound p List.mem_cons_self) hsize k
      rw [concluded, hanalyze]
      exact ⟨p, rest, m, targets, rfl, hsize, rfl, hm, rfl, rfl, rfl, rfl⟩
  next => cases hs

/-! ## Two recordings -/

def skipAt100 : Recording where
  executable := { id := 0, file := "a.exe" }
  listing :=
    ["100 <f>:", "100:\tje 104 <f+4>", "102:\tinc %eax", "103:\tinc %eax", "104:\tret",
     "105 <g>:"]
  traces := [["100", "104"], ["100"]]

def skipAt200 : Recording where
  executable := { id := 1, file := "b.exe" }
  listing :=
    ["200 <f>:", "200:\tje 204 <f+4>", "202:\tinc %eax", "203:\tinc %eax", "204:\tret",
     "205 <g>:"]
  traces := [["200", "202", "203"]]

theorem fresh_skip : ∀ rec ∈ [skipAt100, skipAt200], rec.executable.Fresh := by
  simp only [List.forall_mem_cons]
  exact ⟨⟨rfl, rfl, rfl⟩, ⟨rfl, rfl, rfl⟩, by simp⟩

end Pipeline

end TraceCoverage

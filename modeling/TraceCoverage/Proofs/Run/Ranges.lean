import TraceCoverage.Proofs.Run.Analysis
import TraceCoverage.Proofs.Symbol.Execution

/-!
# The ranges of a run

No byte behind the first instruction of a symbol that no executable executed is missing in the
report, and none is there twice. Where traces name nothing but instructions, the report has no
other byte.
-/

namespace TraceCoverage.Pipeline

open CoverageMap Listing

/-- Executables that have a symbol of a name made maps of it with the same starts. -/
def SameBuilds (t : Target) (wanted : String → Bool) (name : String) (recs : List Recording) :
    Prop :=
  ∀ rec ∈ recs, ∀ rec' ∈ recs, ∀ m ∈ (rec.built t wanted).maps[name]?,
    ∀ m' ∈ (rec'.built t wanted).maps[name]?, m.SameStarts m'

namespace Recording

variable {t : Target} {format : TraceFormat} {wanted : String → Bool} {name : String}
  {rec : Recording} {p : Part}

/-- Where a trace goes through a symbol, it names the starts of its instructions. -/
def TracesStarts (t : Target) (format : TraceFormat) (wanted : String → Bool) (name : String)
    (rec : Recording) : Prop :=
  ∀ m ∈ (rec.built t wanted).maps[name]?, ∀ x ∈ (rec.entries format).flatten,
    ∀ i ∈ m.offset? x.pc, m.isStartAt i = true

instance : Decidable (rec.TracesStarts t format wanted name) :=
  inferInstanceAs (Decidable (∀ m ∈ (rec.built t wanted).maps[name]?, _))

section

variable (hfresh : rec.executable.Fresh) (hp : rec.part? t format wanted name = some p)
include hfresh hp

theorem sameStarts_part :
    ∃ m, (rec.built t wanted).maps[name]? = some m ∧ m.SameStarts p.map := by
  obtain ⟨_, _, _, m, hm, _, hmap⟩ := part?_eq_some hfresh hp
  refine ⟨m, hm, hmap ▸ sameStarts_mark fun i => ?_⟩
  exact (Executable.inert_evidences _ name i).1

theorem isExecuted_part {i : Nat} (hi : i < p.map.size) :
    (p.map.byte i).isExecuted = true ↔
      ∃ x ∈ (rec.entries format).flatten, ∃ m j, (rec.built t wanted).maps[name]? = some m ∧
        (rec.built t wanted).lookup? x.pc = some (name, m) ∧ m.offset? x.pc = some j ∧
        p.map.Spans j i := by
  obtain ⟨m₀, hm₀, hsame⟩ := sameStarts_part hfresh hp
  rw [byte_part hfresh hp hi, Flags.isExecuted_union, CodeLine.isExecuted_flagsAt, Bool.false_or,
    Executable.isExecuted_evidences]
  simp only [Executable.Covers, ← hsame.spans_iff]
  constructor
  · rintro ⟨x, hx, m, j, hlookup, hoffset, hji⟩
    have hm := Executable.getElem?_maps_of_lookup? hlookup
    obtain rfl := Option.some.inj (hm₀.symm.trans hm)
    exact ⟨x, hx, m₀, j, hm, hlookup, hoffset, hji⟩
  · rintro ⟨x, hx, m, j, hm, hlookup, hoffset, hji⟩
    obtain rfl := Option.some.inj (hm₀.symm.trans hm)
    exact ⟨x, hx, m₀, j, hlookup, hoffset, hji⟩

theorem finishes_part : p.map.Finishes := by
  intro i k hspans hran
  rw [isExecuted_part hfresh hp (Nat.lt_of_le_of_lt hspans.1 hspans.2.1)] at hran
  rw [isExecuted_part hfresh hp hspans.2.1]
  obtain ⟨x, hx, m, j, hm, hlookup, hoffset, hji⟩ := hran
  exact ⟨x, hx, m, j, hm, hlookup, hoffset, hji.trans hspans⟩

theorem begins_part (hstarts : rec.TracesStarts t format wanted name) : p.map.Begins := by
  intro i k hi hspans hran
  obtain ⟨m₀, hm₀, hsame⟩ := sameStarts_part hfresh hp
  have hlt := Nat.lt_of_le_of_lt hspans.1 hspans.2.1
  rw [isExecuted_part hfresh hp hspans.2.1] at hran
  obtain ⟨x, hx, m, j, hm, hlookup, hoffset, hjk⟩ := hran
  obtain rfl := Option.some.inj (hm₀.symm.trans hm)
  have hj : p.map.isStartAt j = true := by
    rw [← hsame.starts]
    exact hstarts m₀ hm x hx j hoffset
  obtain rfl := hspans.unique hjk hi hj
  rw [isExecuted_part hfresh hp hlt]
  exact ⟨x, hx, m₀, i, hm, hlookup, hoffset, spans_self hlt⟩

end

end Recording

section

variable {t : Target} {format : TraceFormat} {wanted : String → Bool} {recs : List Recording}
  {name : String} {p : Part} {rest : List Part} {m : CoverageMap}

theorem SameBuilds.parts (h : SameBuilds t wanted name recs)
    (hfresh : ∀ rec ∈ recs, rec.executable.Fresh) {q q' : Part}
    (hq : q ∈ parts t format wanted recs name) (hq' : q' ∈ parts t format wanted recs name) :
    q.map.SameStarts q'.map := by
  obtain ⟨rec, hrec, hpart⟩ := List.mem_filterMap.1 hq
  obtain ⟨rec', hrec', hpart'⟩ := List.mem_filterMap.1 hq'
  obtain ⟨m, hm, hsame⟩ := Recording.sameStarts_part (hfresh rec hrec) hpart
  obtain ⟨m', hm', hsame'⟩ := Recording.sameStarts_part (hfresh rec' hrec') hpart'
  exact hsame.symm.trans ((h rec hrec rec' hrec' m hm m' hm').trans hsame')

variable (hfresh : ∀ rec ∈ recs, rec.executable.Fresh) (hsame : SameBuilds t wanted name recs)
  (hparts : parts t format wanted recs name = p :: rest) (hsize : p.symbol.size ≠ 0)
  (hm : Unifies ((p :: rest).map (·.map)) p.symbol.size.toNat m)
include hfresh hsame hparts hsize hm

theorem sameStarts_merged : ∀ o ∈ (p :: rest).map (·.map), o.SameStarts m := by
  have hmaps : ∀ o ∈ (p :: rest).map (·.map), ∀ o' ∈ (p :: rest).map (·.map), o.SameStarts o' := by
    rw [← hparts]
    intro o ho o' ho'
    obtain ⟨q, hq, rfl⟩ := List.mem_map.1 ho
    obtain ⟨q', hq', rfl⟩ := List.mem_map.1 ho'
    exact hsame.parts hfresh hq hq'
  have hp : p.Sound := sound_of_mem_parts hfresh (hparts ▸ List.mem_cons_self)
  refine fun o => hm.sameStarts (fun o ho => ?_) hmaps
  rw [(hmaps o ho p.map (List.mem_map_of_mem List.mem_cons_self)).size, hp.size_eq hsize]

theorem finishes_merged : m.Finishes := by
  refine hm.finishes (sameStarts_merged hfresh hsame hparts hsize hm) fun o ho => ?_
  obtain ⟨q, hq, rfl⟩ := List.mem_map.1 ho
  obtain ⟨rec, hrec, hpart⟩ := List.mem_filterMap.1 (hparts ▸ hq)
  exact Recording.finishes_part (hfresh rec hrec) hpart

theorem begins_merged (hnames : ∀ rec ∈ recs, rec.TracesStarts t format wanted name) :
    m.Begins := by
  refine hm.begins (sameStarts_merged hfresh hsame hparts hsize hm) fun o ho => ?_
  obtain ⟨q, hq, rfl⟩ := List.mem_map.1 ho
  obtain ⟨rec, hrec, hpart⟩ := List.mem_filterMap.1 (hparts ▸ hq)
  exact Recording.begins_part (hfresh rec hrec) hpart (hnames rec hrec)

end

/-- Every byte behind the first start that was not executed lies in one range of the report. If
traces name nothing but starts, no executed byte lies in any, so the uncovered bytes are those. -/
theorem ranges_of_run {t : Target} {format : TraceFormat} {names : List String}
    {recs : List Recording} {r : Registry} {totals : Totals} {k : String} {s : Symbol}
    {u : CoverageMap} (hfresh : ∀ rec ∈ recs, rec.executable.Fresh)
    (hsame : SameBuilds t (Registry.wanting names).contains k recs)
    (hrun : run t format (.wanting names) recs = .ok (r, totals)) (hs : r.find? k = some s)
    (hu : s.unified = some u) :
    (∀ i < u.size, u.reaches i = true → (u.byte i).isExecuted = false →
      s.ranges.countP (·.covers (s.base + UInt32.ofNat i)) = 1) ∧
    ((∀ rec ∈ recs, rec.TracesStarts t format (Registry.wanting names).contains k) →
      (∀ i < u.size, (u.byte i).isExecuted = true →
        ∀ r ∈ s.ranges, r.covers (s.base + UInt32.ofNat i) = false) ∧
      s.stats.uncoveredBytes =
        (List.range u.size).countP fun i => u.reaches i && !(u.byte i).isExecuted) := by
  obtain ⟨p, rest, m, targets, hparts, hsize, hbase, hm, ha⟩ :=
    analyzed_of_run hfresh hrun hs hu
  obtain rfl := Option.some.inj (hu.symm.trans ha.unified)
  have hfinishes := (finishes_merged hfresh hsame hparts hsize hm).fillPadding
  have hp : p.Sound := sound_of_mem_parts hfresh (hparts ▸ List.mem_cons_self)
  have hlow : m.fillPadding.low = 0 := (low_fillPadding m).trans hm.low
  have hlength : m.fillPadding.size = p.symbol.size.toNat := (size_fillPadding m).trans hm.size
  have hfits : s.base.toNat + m.fillPadding.size ≤ 0x100000000 := by
    rw [hlength, hbase, ← hp.size_eq hsize]
    exact hp.takes.fits
  have hcount := fun i (hi : i < m.fillPadding.size) =>
    countP_uncoveredRanges s.name hlow hfits hi
  rw [← ha.ranges] at hcount
  refine ⟨fun i hi hreaches hran => ?_, fun hnames => ?_⟩
  · rw [hcount i hi, hfinishes.misses hi hreaches hran, if_pos rfl]
  · have hmisses := fun i (hi : i < m.fillPadding.size) =>
      (begins_merged hfresh hsame hparts hsize hm hnames).fillPadding.misses_eq hfinishes hi
    refine ⟨fun i hi hran => ?_, ?_⟩
    · have hnone := hcount i hi
      rw [hmisses i hi, hran, Bool.not_true, Bool.and_false, if_neg (by simp),
        List.countP_eq_zero] at hnone
      exact fun r hr => Bool.eq_false_iff.2 (hnone r hr)
    · have hbytes : s.stats.uncoveredBytes = (s.ranges.map (·.sizeInBytes.toNat)).foldr (· + ·) 0 := by
        rw [ha.stats, Statistics.ofSymbol, hu]
      rw [hbytes, ha.ranges, sum_size_uncoveredRanges _ _ (hlength ▸ p.symbol.size.toNat_lt)]
      exact List.countP_congr fun i hi => by rw [hmisses i (List.mem_range.1 hi)]

theorem ranges_of_run_skip :
    ∃ r totals s,
      run i386 .pcs (.wanting ["f"]) [skipAt100, { skipAt200 with traces := [["200"]] }] =
        .ok (r, totals) ∧
      r.find? "f" = some s ∧ s.stats.uncoveredBytes = 2 ∧
      s.ranges.countP (·.covers (s.base + UInt32.ofNat 2)) = 1 := by
  have hfresh : ∀ rec ∈ [skipAt100, { skipAt200 with traces := [["200"]] }],
      rec.executable.Fresh := by
    simp only [List.forall_mem_cons]
    exact ⟨⟨rfl, rfl, rfl⟩, ⟨rfl, rfl, rfl⟩, by simp⟩
  have hsame : SameBuilds i386 (Registry.wanting ["f"]).contains "f"
      [skipAt100, { skipAt200 with traces := [["200"]] }] := by
    unfold SameBuilds
    decide +kernel
  obtain ⟨r, totals, hrun⟩ : ∃ r totals,
      run i386 .pcs (.wanting ["f"]) [skipAt100, { skipAt200 with traces := [["200"]] }] =
        .ok (r, totals) :=
    run_ok hfresh (by decide +kernel)
  have hfound : ((run i386 .pcs (.wanting ["f"])
      [skipAt100, { skipAt200 with traces := [["200"]] }]).toOption.bind
      (·.1.find? "f")).any (fun s => s.unified.any fun u =>
        decide (2 < u.size ∧ u.reaches 2 = true ∧ (u.byte 2).isExecuted = false ∧
          (List.range u.size).countP (fun i => u.reaches i && !(u.byte i).isExecuted) = 2)) =
      true := by
    decide +kernel
  rw [hrun] at hfound
  obtain ⟨s, hs, hunified⟩ := (Option.any_eq_true _ _).1 hfound
  obtain ⟨u, hu, hbytes⟩ := (Option.any_eq_true _ _).1 hunified
  obtain ⟨hsize, hreaches, hran, hcount⟩ := of_decide_eq_true hbytes
  obtain ⟨hmissed, hexact⟩ := ranges_of_run hfresh hsame hrun hs hu
  obtain ⟨_, huncovered⟩ := hexact (by decide +kernel)
  exact ⟨r, totals, s, hrun, hs, huncovered.trans hcount, hmissed 2 hsize hreaches hran⟩

end TraceCoverage.Pipeline

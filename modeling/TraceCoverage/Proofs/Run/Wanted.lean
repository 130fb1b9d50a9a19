import TraceCoverage.Proofs.Listing.Ordered
import TraceCoverage.Proofs.Run.Analysis

/-!
# Wanting more symbols

Which symbols are wanted decides what is read from a listing, and so what an address is looked up
in. In listings in the order of their addresses no symbol stands in the place of another, so a
symbol gets the same results whatever else is wanted.
-/

namespace TraceCoverage

open CoverageMap Listing

/-! ## What traces show of one symbol -/

namespace Executable

variable {e e' : Executable} {name : String}

open Classical in
theorem evidences_congr_at
    (hlookup : ∀ a m, e.lookup? a = some (name, m) ↔ e'.lookup? a = some (name, m))
    (htarget : ∀ a m, e.lookup? a = some (name, m) → e.target? a = e'.target? a)
    (traces : List (List TraceEntry)) : e.evidences traces name = e'.evidences traces name := by
  have hcovers : ∀ pc k, e.Covers pc name k ↔ e'.Covers pc name k := by
    intro pc k
    simp only [Covers, hlookup]
  have hfalls : ∀ p k, e.FallsThrough p name k ↔ e'.FallsThrough p name k := by
    intro p k
    simp only [FallsThrough, hlookup]
  have hjumps : ∀ p k, e.Jumps p name k ↔ e'.Jumps p name k := by
    intro p k
    unfold Jumps
    apply exists_congr
    intro m
    rw [← hlookup]
    apply and_congr_right
    intro hm
    rw [htarget _ m hm]
  funext k
  simp only [evidences, shown, hcovers, hjumps, hfalls]

end Executable

/-! ## Wanted segments -/

namespace CodeLine

variable {lines : List CodeLine} {a : Address}

theorem targetAt?_eq_none (h : ∀ b ∈ lines.filterMap (·.address), b ≠ a) :
    targetAt? lines a = none := by
  induction lines with
  | nil => rfl
  | cons l rest ih =>
    have hl : l.address ≠ some a := by
      intro hl
      exact h a (List.mem_filterMap.2 ⟨l, List.mem_cons_self, hl⟩) rfl
    rw [targetAt?, ih, if_neg hl, Option.or_none]
    intro b hb
    obtain ⟨l', hl', hb⟩ := List.mem_filterMap.1 hb
    exact h b (List.mem_filterMap.2 ⟨l', List.mem_cons_of_mem _ hl', hb⟩)

theorem targetAt?_flatMap_eq_none {symbols : List ResolvedSymbol}
    (h : ∀ s ∈ symbols, ∀ b ∈ s.lines.filterMap (·.address), b ≠ a) :
    targetAt? (symbols.flatMap (·.lines)) a = none := by
  apply targetAt?_eq_none
  intro b hb
  obtain ⟨l, hl, hb⟩ := List.mem_filterMap.1 hb
  obtain ⟨s, hs, hl⟩ := List.mem_flatMap.1 hl
  exact h s hs b (List.mem_filterMap.2 ⟨l, hl, hb⟩)

end CodeLine

namespace Listing

variable {t : Target} {bias : Address} {wanted : String → Bool} {lines : List String}

theorem Ordered.targetAt?_contributions (h : Ordered t bias lines) {s : ResolvedSymbol}
    (hs : s ∈ contributions t bias wanted lines) (hsize : s.size ≠ 0) {a : Address}
    (hbase : s.base ≤ a) (hlast : a ≤ s.last) :
    CodeLine.targetAt? ((contributions t bias wanted lines).flatMap (·.lines)) a =
      CodeLine.targetAt? s.lines a := by
  have hsorted := h.contributions_pairwise wanted
  have hlines := h.lines_lt wanted
  have hstarts := fun s' (hs' : s' ∈ contributions t bias wanted lines) => h.le_lines hs'
  obtain ⟨before, after, hsplit⟩ := List.append_of_mem hs
  rw [hsplit] at hsorted hlines hstarts
  rw [hsplit, List.flatMap_append, List.flatMap_cons, CodeLine.targetAt?_append,
    CodeLine.targetAt?_append]
  have hbefore : CodeLine.targetAt? (before.flatMap (·.lines)) a = none := by
    apply CodeLine.targetAt?_flatMap_eq_none
    rintro s' hs' b hb rfl
    have hlt := (List.pairwise_append.1 hlines).2.2 s' hs' s List.mem_cons_self b hb
    exact absurd hbase (UInt32.not_le.2 hlt)
  have hafter : CodeLine.targetAt? (after.flatMap (·.lines)) a = none := by
    apply CodeLine.targetAt?_flatMap_eq_none
    rintro s' hs' b hb rfl
    have hlt := ((List.pairwise_cons.1 (List.pairwise_append.1 hsorted).2.1).1 s' hs').2 hsize
    have hle := hstarts s' (by simp [hs']) b hb
    exact absurd hlast (UInt32.not_le.2 (UInt32.lt_of_lt_of_le hlt hle))
  rw [hbefore, hafter, Option.none_or, Option.or_none]

end Listing

namespace Pipeline

variable {t : Target} {format : TraceFormat} {wanted wanted' : String → Bool} {name : String}

namespace Recording

variable {rec : Recording}

theorem find?_symbols_eq (hname : wanted name = true) (hname' : wanted' name = true) :
    (rec.symbols t wanted).find? (·.name == name) =
      (rec.symbols t wanted').find? (·.name == name) := by
  rw [symbols, symbols, find?_contributions hname, find?_contributions hname']

section

variable (hfresh : rec.executable.Fresh)
include hfresh

theorem getElem?_maps_built {m : CoverageMap} :
    (rec.built t wanted).maps[name]? = some m ↔
      ∃ s, (rec.symbols t wanted).find? (·.name == name) = some s ∧ s.Draws m := by
  rw [(built_spec t wanted hfresh).getElem?_maps_iff]
  simp only [find?_symbols hfresh, and_assoc]

theorem maps_built_eq (hname : wanted name = true) (hname' : wanted' name = true) :
    (rec.built t wanted).maps[name]? = (rec.built t wanted').maps[name]? := by
  apply Option.ext
  intro m
  rw [getElem?_maps_built hfresh, getElem?_maps_built hfresh,
    find?_symbols_eq hname hname']

theorem symbols_subset (hsub : ∀ k, wanted k = true → wanted' k = true) :
    rec.symbols t wanted ⊆ rec.symbols t wanted' := by
  intro s hs
  obtain ⟨g, _, hwanted, hsymbol⟩ := exists_segment_of_mem hs
  rw [← (Segment.of_symbol? hsymbol).1] at hwanted
  have hfound := (find?_symbols hfresh).2 ⟨hs, rfl⟩
  rw [find?_symbols_eq hwanted (hsub _ hwanted)] at hfound
  exact ((find?_symbols hfresh).1 hfound).1

variable (hordered : Ordered t rec.executable.loadAddress rec.listing)
include hordered

section

variable (hsize : ∀ s ∈ rec.symbols t wanted, s.size ≠ 0)
include hsize

theorem lookup?_built_iff {a : Address} {m : CoverageMap} :
    (rec.built t wanted).lookup? a = some (name, m) ↔
      (rec.built t wanted).maps[name]? = some m ∧ m.contains a = true := by
  constructor
  · intro h
    obtain ⟨_, _, _, hm, hc⟩ := Executable.lookup?_eq_some_iff.1 h
    exact ⟨hm, hc⟩
  · rintro ⟨hm, hc⟩
    obtain ⟨s, hs, hdraws⟩ := (getElem?_maps_built hfresh).1 hm
    obtain ⟨hmem, rfl⟩ := (find?_symbols hfresh).1 hs
    exact (built_spec t wanted hfresh).lookup?_eq (hordered.contributions_pairwise wanted) hmem
      (hsize s hmem) hm hdraws hc

theorem target?_built {a : Address} {m : CoverageMap}
    (h : (rec.built t wanted).lookup? a = some (name, m)) :
    ∃ s, (rec.symbols t wanted).find? (·.name == name) = some s ∧
      (rec.built t wanted).target? a = CodeLine.targetAt? s.lines a := by
  obtain ⟨hm, hc⟩ := (lookup?_built_iff hfresh hordered hsize).1 h
  obtain ⟨s, hs, hdraws⟩ := (getElem?_maps_built hfresh).1 hm
  obtain ⟨hmem, _⟩ := (find?_symbols hfresh).1 hs
  obtain ⟨hbase, hlast⟩ := hdraws.contains_iff.1 hc
  refine ⟨s, hs, ?_⟩
  rw [(built_spec t wanted hfresh).target]
  exact hordered.targetAt?_contributions hmem (hsize s hmem) hbase hlast

end

/-- What an executable brings to a wanted symbol does not depend on what else is wanted. -/
theorem part?_wanting_more (hsub : ∀ k, wanted k = true → wanted' k = true)
    (hsize : ∀ s ∈ rec.symbols t wanted', s.size ≠ 0) (hname : wanted name = true) :
    rec.part? t format wanted' name = rec.part? t format wanted name := by
  have hsize₀ : ∀ s ∈ rec.symbols t wanted, s.size ≠ 0 := fun s hs =>
    hsize s (symbols_subset hfresh hsub hs)
  have hsymbol : (rec.symbols t wanted).find? (·.name == name) =
      (rec.symbols t wanted').find? (·.name == name) := find?_symbols_eq hname (hsub name hname)
  have hmap : (rec.built t wanted).maps[name]? = (rec.built t wanted').maps[name]? :=
    maps_built_eq hfresh hname (hsub name hname)
  have hlookup : ∀ a m, (rec.built t wanted).lookup? a = some (name, m) ↔
      (rec.built t wanted').lookup? a = some (name, m) := by
    intro a m
    rw [lookup?_built_iff hfresh hordered hsize₀, lookup?_built_iff hfresh hordered hsize, hmap]
  have htarget : ∀ a m, (rec.built t wanted).lookup? a = some (name, m) →
      (rec.built t wanted).target? a = (rec.built t wanted').target? a := by
    intro a m h
    obtain ⟨s, hs, heq⟩ := target?_built hfresh hordered hsize₀ h
    obtain ⟨s', hs', heq'⟩ := target?_built hfresh hordered hsize ((hlookup a m).1 h)
    obtain rfl := Option.some.inj (hs.symm.trans (hsymbol.trans hs'))
    rw [heq, heq']
  unfold part?
  rw [traced_eq, traced_eq, Executable.getElem?_maps_mark, Executable.getElem?_maps_mark, hsymbol,
    hmap, Executable.evidences_congr_at hlookup htarget]

end

end Recording

/-- Wanting more symbols changes nothing for those that were wanted before: both runs succeed, and
leave the same symbol under each of their names. -/
theorem run_wanting_more {names names' : List String} {recs : List Recording}
    (hsub : names ⊆ names') (hfresh : ∀ rec ∈ recs, rec.executable.Fresh)
    (hordered : ∀ rec ∈ recs, Ordered t rec.executable.loadAddress rec.listing)
    (hsize : ∀ rec ∈ recs, ∀ s ∈ rec.symbols t (Registry.wanting names').contains, s.size ≠ 0) :
    ∃ r totals r' totals', run t format (.wanting names) recs = .ok (r, totals) ∧
      run t format (.wanting names') recs = .ok (r', totals') ∧
      ∀ k ∈ names, ∃ s, r.find? k = some s ∧ r'.find? k = some s := by
  have hwanted : ∀ k, (Registry.wanting names).contains k = true →
      (Registry.wanting names').contains k = true := by
    intro k hk
    exact contains_wanting.2 (hsub (contains_wanting.1 hk))
  have hsize₀ : ∀ rec ∈ recs, ∀ s ∈ rec.symbols t (Registry.wanting names).contains,
      s.size ≠ 0 := by
    intro rec hrec s hs
    exact hsize rec hrec s (Recording.symbols_subset (hfresh rec hrec) hwanted hs)
  obtain ⟨r, totals, hrun⟩ : ∃ r totals, run t format (.wanting names) recs = .ok (r, totals) :=
    run_ok hfresh hsize₀
  obtain ⟨r', totals', hrun'⟩ : ∃ r totals, run t format (.wanting names') recs = .ok (r, totals) :=
    run_ok hfresh hsize
  refine ⟨r, totals, r', totals', hrun, hrun', ?_⟩
  intro k hk
  have hparts : parts t format (Registry.wanting names').contains recs k =
      parts t format (Registry.wanting names).contains recs k := by
    apply List.filterMap_congr
    intro rec hrec
    exact Recording.part?_wanting_more (hfresh rec hrec) (hordered rec hrec) hwanted
      (hsize rec hrec) (contains_wanting.2 hk)
  refine ⟨_, (run_of_ok hfresh hrun).2 k |>.trans (if_pos hk), ?_⟩
  rw [← hparts]
  exact ((run_of_ok hfresh hrun').2 k).trans (if_pos (hsub hk))

theorem run_wanting_more_skip :
    ∃ r totals r' totals',
      run i386 .pcs (.wanting ["f"]) [skipAt100, skipAt200] = .ok (r, totals) ∧
      run i386 .pcs (.wanting ["f", "g"]) [skipAt100, skipAt200] = .ok (r', totals') ∧
      ∀ k ∈ ["f"], ∃ s, r.find? k = some s ∧ r'.find? k = some s := by
  apply run_wanting_more
  · simp
  · exact fresh_skip
  · decide +kernel
  · decide +kernel

end Pipeline

end TraceCoverage

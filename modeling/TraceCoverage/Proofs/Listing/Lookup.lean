import TraceCoverage.Proofs.Listing.Ordered
import TraceCoverage.Proofs.Symbol.Relative

/-!
# Looking up what was read

An executable finds an address by the nearest base below it, and a name by an index of its own. In a
listing in the order of its addresses symbols do not overlap, so both find the symbol that was read
there and nothing else.
-/

namespace TraceCoverage

namespace ResolvedSymbol

variable {s s' : ResolvedSymbol} {a : Address}

theorem inside_iff : s.inside a = true ↔ s.base ≤ a ∧ a ≤ s.last := by
  rw [inside, Bool.and_eq_true, decide_eq_true_eq, decide_eq_true_eq]

theorem Before.disjoint (h : s.Before s') (hsize : s.size ≠ 0) (hin : s.inside a = true) :
    s'.inside a = false := by
  rw [Bool.eq_false_iff, Ne, inside_iff]
  rintro ⟨hbase, _⟩
  exact absurd (UInt32.lt_of_lt_of_le (h.2 hsize) hbase) (UInt32.not_lt.2 (inside_iff.1 hin).2)

/-! ## Names -/

variable {symbols : List ResolvedSymbol} {name : String}

theorem find?_tableOf (hnames : (symbols.map (·.name)).Nodup) (hsorted : symbols.Pairwise Before)
    (entry : SymbolEntry) :
    (tableOf symbols).find? name = some entry ↔
      ∃ s ∈ symbols, s.name = name ∧ s.entry = entry := by
  have hbases := nodup_bases hsorted
  rw [tableOf_eq, SymbolTable.find?_ofEntries_of_nodup (by rwa [List.map_map])
    (by rwa [List.map_map]), List.mem_map]
  constructor
  · rintro ⟨⟨s, hs, rfl⟩, hname⟩
    exact ⟨s, hs, hname, rfl⟩
  · rintro ⟨s, hs, hname, rfl⟩
    exact ⟨⟨s, hs, rfl⟩, hname⟩

end ResolvedSymbol

namespace Listing

variable (t : Target) (wanted : String → Bool)

/-- Reading a listing in order leaves symbols that do not overlap. Each is found under its name, as
it was read, and its map at all addresses from its base to its last one; nothing else is found. -/
theorem lookup_after_read {e : Executable} (he : e.Fresh) {lines : List String}
    (hordered : Ordered t e.loadAddress lines)
    (hsize : ∀ s ∈ contributions t e.loadAddress wanted lines, s.size ≠ 0) :
    let found := contributions t e.loadAddress wanted lines
    let after := (read t wanted e { lines }).state
    (read t wanted e { lines }).result = .ok found ∧
      (found.Pairwise fun s s' => ∀ a, s.inside a = true → s'.inside a = false) ∧
      (∀ name entry, after.symbols.find? name = some entry ↔
        ∃ s ∈ found, s.name = name ∧ s.entry = entry) ∧
      (∀ a, (∃ m, after.mapAt? a = some m) ↔ ∃ s ∈ found, s.inside a = true) ∧
      ∀ s ∈ found, ∃ m, after.maps[s.name]? = some m ∧ s.Draws m ∧
        ∀ a, s.inside a = true → after.mapAt? a = some m := by
  intro found after
  obtain ⟨hresult, hb⟩ := read_spec t wanted he lines
  have hsorted : found.Pairwise ResolvedSymbol.Before := hordered.contributions_pairwise wanted
  have hmapped : ∀ s ∈ found, ∃ m, after.maps[s.name]? = some m ∧ s.Draws m ∧
      ∀ a, s.inside a = true → after.mapAt? a = some m := by
    intro s hs
    obtain ⟨m, hm, hdraws⟩ := hb.mapped s hs
    refine ⟨m, hm, hdraws, fun a ha => ?_⟩
    have hin := hdraws.contains_iff.2 (ResolvedSymbol.inside_iff.1 ha)
    rw [Executable.mapAt?, hb.lookup?_eq hsorted hs (hsize s hs) hm hdraws hin, Option.map_some]
  refine ⟨hresult, ?_, fun name entry => ?_, fun a => ⟨?_, ?_⟩, hmapped⟩
  · exact hsorted.imp_of_mem fun hs _ hbefore a ha => hbefore.disjoint (hsize _ hs) ha
  · rw [hb.table]
    exact ResolvedSymbol.find?_tableOf hb.distinct hsorted entry
  · rintro ⟨m, hm⟩
    obtain ⟨⟨name, m'⟩, hlookup, rfl⟩ := Option.map_eq_some_iff.1 hm
    obtain ⟨_, _, _, hm', hin⟩ := Executable.lookup?_eq_some_iff.1 hlookup
    obtain ⟨s, hs, _, hdraws⟩ := hb.getElem?_maps_iff.1 hm'
    exact ⟨s, hs, ResolvedSymbol.inside_iff.2 (hdraws.contains_iff.1 hin)⟩
  · rintro ⟨s, hs, ha⟩
    obtain ⟨m, _, _, hlookup⟩ := hmapped s hs
    exact ⟨m, hlookup a ha⟩

theorem lookup_after_read_dispatching :
    let e : Executable := { id := 0, file := "a.exe" }
    let after := (read i386 (["f", "g"].contains ·) e { lines := dispatching }).state
    after.symbols.find? "g" = some { name := "g", base := 0x120, size := 1 } ∧
      (∃ m, after.mapAt? 0x104 = some m) ∧ ¬ (∃ m, after.mapAt? 0x105 = some m) := by
  intro e after
  have hordered : Ordered i386 e.loadAddress dispatching := by decide +kernel
  obtain ⟨_, _, hnames, hplaces, _⟩ :=
    lookup_after_read i386 (["f", "g"].contains ·) (e := e) ⟨rfl, rfl, rfl⟩ hordered
      (by decide +kernel)
  refine ⟨(hnames _ _).2 ?_, (hplaces _).2 ?_, fun h => absurd ((hplaces _).1 h) ?_⟩
  all_goals decide +kernel

end Listing

end TraceCoverage

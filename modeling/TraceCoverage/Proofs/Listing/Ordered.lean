import TraceCoverage.Proofs.Executable.Marks
import TraceCoverage.Proofs.Executable.Naming
import TraceCoverage.Proofs.Listing.Segments
import TraceCoverage.Proofs.Listing.Trimming
import Mathlib.Data.List.Basic
import Mathlib.Data.List.Pairwise
import Mathlib.Data.List.TakeWhile

/-!
# Listings in the order of their addresses

A disassembler lists code by ascending addresses. Then the symbols of a listing lie one behind the
other, and an address of a symbol is found under its name.
-/

namespace TraceCoverage

namespace Listing

/-- Headers ascend, and so do the instructions between two of them. -/
def Ordered (t : Target) (bias : Address) : List String → Prop
  | [] => True
  | line :: rest =>
    (∀ start, headerAt? t bias line = some start →
      (instructionAddresses t bias (upToHeader t bias rest)).Pairwise (· < ·) ∧
      (∀ a ∈ instructionAddresses t bias (upToHeader t bias rest), start ≤ a) ∧
      ∀ next, rest.findSome? (headerAt? t bias) = some next →
        start < next ∧
          ∀ a ∈ instructionAddresses t bias (upToHeader t bias rest), a < next) ∧
    Ordered t bias rest

-- The quantifiers over addresses are read as checks of lists and options, since an instance that
-- goes through all addresses would never end.
instance decidableOrdered (t : Target) (bias : Address) : DecidablePred (Ordered t bias)
  | [] => isTrue trivial
  | line :: rest =>
    have := decidableOrdered t bias rest
    let addresses := instructionAddresses t bias (upToHeader t bias rest)
    decidable_of_iff
      (((headerAt? t bias line).all fun start =>
        decide (addresses.Pairwise (· < ·)) && addresses.all (start ≤ ·) &&
          (rest.findSome? (headerAt? t bias)).all fun next =>
            decide (start < next) && addresses.all (· < next)) = true ∧ Ordered t bias rest)
      (by simp only [Ordered, addresses, Option.all_eq_true, List.all_eq_true, Bool.and_eq_true,
        decide_eq_true_eq, and_assoc])

end Listing

/-! ## Symbols behind each other -/

namespace ResolvedSymbol

/-- The symbol lies behind another. One that takes the whole address space has no end. -/
def Before (s s' : ResolvedSymbol) : Prop := s.base < s'.base ∧ (s.size ≠ 0 → s.last < s'.base)

def entry (s : ResolvedSymbol) : SymbolEntry := { name := s.name, base := s.base, size := s.size }

end ResolvedSymbol

section

variable {symbols : List ResolvedSymbol}

theorem before_of_lt (h : symbols.Pairwise ResolvedSymbol.Before) {s s' : ResolvedSymbol}
    (hs : s ∈ symbols) (hs' : s' ∈ symbols) (hlt : s.base < s'.base) : s.Before s' := by
  have hforth : symbols.Pairwise fun s s' => s.base < s'.base → s.Before s' :=
    h.imp fun {s s'} hb (_ : s.base < s'.base) => hb
  have hback : symbols.Pairwise fun s' s => s.base < s'.base → s.Before s' :=
    h.imp fun {s' s} hb (hlt : s.base < s'.base) =>
      absurd (UInt32.lt_trans hb.1 hlt) (UInt32.lt_irrefl _)
  exact List.Pairwise.forall_of_forall_of_flip
    (fun s _ hlt => absurd hlt (UInt32.lt_irrefl s.base)) hforth hback hs hs' hlt

theorem nodup_bases (h : symbols.Pairwise ResolvedSymbol.Before) :
    (symbols.map (·.base)).Nodup :=
  List.pairwise_map.2 (h.imp fun hbefore => UInt32.ne_of_lt hbefore.1)

theorem tableOf_eq (symbols : List ResolvedSymbol) :
    ResolvedSymbol.tableOf symbols = SymbolTable.ofEntries (symbols.map (·.entry)) := by
  rw [SymbolTable.ofEntries, List.foldl_map]
  rfl

theorem byAddress_tableOf (hnames : (symbols.map (·.name)).Nodup)
    (hsorted : symbols.Pairwise ResolvedSymbol.Before) (base : Address) (entry : SymbolEntry) :
    (ResolvedSymbol.tableOf symbols).byAddress[base]? = some entry ↔
      ∃ s ∈ symbols, s.base = base ∧ s.entry = entry := by
  have hbases := nodup_bases hsorted
  rw [tableOf_eq, SymbolTable.getElem?_byAddress_ofEntries_of_nodup (by rwa [List.map_map])
    (by rwa [List.map_map]), List.mem_map]
  constructor
  · rintro ⟨⟨s, hs, rfl⟩, hbase⟩
    exact ⟨s, hs, hbase, rfl⟩
  · rintro ⟨s, hs, hbase, rfl⟩
    exact ⟨⟨s, hs, rfl⟩, hbase⟩

end

namespace Executable

variable {fresh e : Executable} {symbols : List ResolvedSymbol} {s : ResolvedSymbol}
  {m : CoverageMap} {a : Address}

theorem Built.lookup?_eq (hb : fresh.Built symbols e)
    (hsorted : symbols.Pairwise ResolvedSymbol.Before) (hs : s ∈ symbols) (hsize : s.size ≠ 0)
    (hm : e.maps[s.name]? = some m) (hdraws : s.Draws m) (ha : m.contains a = true) :
    e.lookup? a = some (s.name, m) := by
  have hentries := byAddress_tableOf hb.distinct hsorted
  rw [← hb.table] at hentries
  have hplaced : e.symbols.Placed := by
    rw [hb.table, tableOf_eq]
    exact SymbolTable.placed_ofEntries _
  have hwithin : s.base ≤ a ∧ a ≤ s.last := hdraws.contains_iff.1 ha
  have hlast : s.entry.last = s.last := by
    rw [SymbolEntry.last, ResolvedSymbol.last, ResolvedSymbol.entry, if_neg hsize]
  refine lookup?_eq_some_iff.2 ⟨s.entry, SymbolTable.at?_eq_some hplaced ?_ ?_ ?_, rfl, hm, ha⟩
  · exact (hentries _ _).2 ⟨s, hs, rfl, rfl⟩
  · intro entry hentry hle
    obtain ⟨base, hget⟩ := SymbolTable.mem_toList.1 hentry
    obtain ⟨s', hs', _, rfl⟩ := (hentries _ _).1 hget
    by_contra hlt
    have hbefore := before_of_lt hsorted hs hs' (UInt32.not_le.1 hlt)
    exact absurd (UInt32.lt_of_lt_of_le (hbefore.2 hsize) hle) (UInt32.not_lt.2 hwithin.2)
  · simp only [SymbolEntry.contains, hlast, Bool.and_eq_true, decide_eq_true_eq]
    exact hwithin

end Executable

namespace Listing

variable {t : Target} {bias : Address} {line : String} {rest lines : List String}

/-! ## Segments of ordered listings -/

theorem header_or_not (t : Target) (bias : Address) (line : String) (rest : List String) :
    (∃ offset label, headerAt? t bias line = some (bias + offset) ∧
      segments t bias (line :: rest) =
        segmentOf t bias offset label line rest :: segments t bias rest) ∨
    (headerAt? t bias line = none ∧ segments t bias (line :: rest) = segments t bias rest) := by
  rw [headerAt?, segments]
  cases LineKind.ofLine t line.toList with
  | header offset label => exact .inl ⟨offset, label, rfl, rfl⟩
  | sentinel | instruction | text => exact .inr ⟨rfl, rfl⟩

theorem split_at_sentinel {a : Address}
    (h : (upToHeader t bias rest).findSome? (sentinelAt? t bias) = some a) :
    ∃ before sentinel after, upToHeader t bias rest = before ++ sentinel :: after ∧
      sentinelAt? t bias sentinel = some a ∧
      bodyOf t bias rest = before.map (bodyLine t bias) := by
  obtain ⟨before, sentinel, after, hsplit, hsentinel, hbefore⟩ := List.findSome?_eq_some_iff.1 h
  refine ⟨before, sentinel, after, hsplit, hsentinel, ?_⟩
  rw [bodyOf, hsplit, List.takeWhile_append_of_pos fun l hl => by simp [hbefore l hl],
    List.takeWhile_cons_of_neg (by simp [hsentinel]), List.append_nil]

def codeAt? (t : Target) (bias : Address) (line : String) : Option Address :=
  ((LineKind.ofLine t line.toList).codeAddress?).map (bias + ·)

theorem mem_instructionAddresses {a : Address} (hmem : line ∈ lines)
    (h : codeAt? t bias line = some a) : a ∈ instructionAddresses t bias lines :=
  List.mem_filterMap.2 ⟨line, hmem, h⟩

theorem codeAt?_of_sentinel {a : Address} (h : sentinelAt? t bias line = some a) :
    codeAt? t bias line = some a := by
  unfold sentinelAt? at h
  unfold codeAt?
  cases hk : LineKind.ofLine t line.toList <;> simp [hk] at h
  simp [LineKind.codeAddress?, h]

theorem codeAt?_of_body {a : Address} (h : (bodyLine t bias line).address = some a) :
    codeAt? t bias line = some a := by
  unfold bodyLine at h
  unfold codeAt?
  cases hk : LineKind.ofLine t line.toList <;> simp [hk, codeLine] at h
  simp [LineKind.codeAddress?, h]

/-- The code between a header at `start` and the next one, at `next`, stands in order between these
two. -/
structure Encloses (t : Target) (bias : Address) (rest : List String) (start next : Address) :
    Prop where
  header : rest.findSome? (headerAt? t bias) = some next
  lt : start < next
  sorted : (instructionAddresses t bias (upToHeader t bias rest)).Pairwise (· < ·)
  start_le : ∀ a ∈ instructionAddresses t bias (upToHeader t bias rest), start ≤ a
  lt_next : ∀ a ∈ instructionAddresses t bias (upToHeader t bias rest), a < next

/-- What stops a symbol that is followed by a header lies behind its start and not behind that
header. Only a sentinel at address 0 lies on the start, and then the body has no instructions. -/
theorem stop_of_next {start next : Address} (h : Encloses t bias rest start next) :
    ∃ stop, stop? t bias rest = some stop ∧ stop ≤ next ∧
      (stop = 0 → start = 0 ∧ ∀ l ∈ bodyOf t bias rest, l.isInstruction = false) := by
  obtain ⟨hheader, hlt, hsorted, hstart, hnext⟩ := h
  have hzero_le : ∀ a : Address, 0 ≤ a := fun a => UInt32.le_iff_toNat_le.2 (Nat.zero_le _)
  unfold stop?
  cases hs : (upToHeader t bias rest).findSome? (sentinelAt? t bias) with
  | none =>
    refine ⟨next, by rw [Option.none_or, hheader], UInt32.le_refl _, fun hzero => ?_⟩
    rw [hzero] at hlt
    exact absurd hlt (UInt32.not_lt.2 (hzero_le _))
  | some stop =>
    obtain ⟨before, sentinel, after, hsplit, hsentinel, hbody⟩ := split_at_sentinel hs
    have hmem : stop ∈ instructionAddresses t bias (upToHeader t bias rest) :=
      mem_instructionAddresses (hsplit ▸ by simp) (codeAt?_of_sentinel hsentinel)
    refine ⟨stop, Option.some_or, UInt32.le_of_lt (hnext stop hmem), fun hzero =>
      ⟨UInt32.le_antisymm (hzero ▸ hstart stop hmem) (hzero_le _), fun l hl => ?_⟩⟩
    rw [hbody, List.mem_map] at hl
    obtain ⟨line, hline, rfl⟩ := hl
    rw [CodeLine.isInstruction, Option.isSome_eq_false_iff, Option.isNone_iff_eq_none]
    cases ha : (bodyLine t bias line).address with
    | none => rfl
    | some a =>
      rw [hsplit, instructionAddresses, List.filterMap_append, List.pairwise_append] at hsorted
      have hlt' := hsorted.2.2 a (mem_instructionAddresses hline (codeAt?_of_body ha)) stop
        (mem_instructionAddresses List.mem_cons_self (codeAt?_of_sentinel hsentinel))
      rw [hzero] at hlt'
      exact absurd hlt' (UInt32.not_lt.2 (hzero_le _))

theorem last_lt_of_stop {g : Segment} {s : ResolvedSymbol} (h : g.symbol? = some s)
    (hsize : s.size ≠ 0) {stop : Address} (hlast : g.last = stop - 1)
    (hstop : stop = 0 → Padding.bytes g.body = 0 ∧ g.start = 0) : s.last < stop := by
  obtain ⟨_, hbase, hpadding, heq, hle, hsizeq⟩ := Segment.of_symbol? h
  by_cases hzero : stop = 0
  · obtain ⟨hbytes, hstart⟩ := hstop hzero
    rw [heq, hbase, hlast, hzero, hbytes, hstart] at hsizeq
    exact absurd (hsizeq.trans (by decide)) hsize
  · have hpos : stop.toNat ≠ 0 := fun hz => hzero (UInt32.toNat_inj.1 hz)
    have hg : g.last.toNat = stop.toNat - 1 := by rw [hlast, Address.toNat_sub_one hzero]
    rw [UInt32.lt_iff_toNat_lt, heq, UInt32.toNat_sub_of_le _ _ hpadding]
    omega

theorem Ordered.le_start (h : Ordered t bias lines) {g : Segment} (hg : g ∈ segments t bias lines) :
    ∃ next, lines.findSome? (headerAt? t bias) = some next ∧ next ≤ g.start := by
  induction lines with
  | nil => cases hg
  | cons line rest ih =>
    obtain ⟨hheader, hrest⟩ := h
    rcases header_or_not t bias line rest with ⟨offset, label, hat, hsegments⟩ | ⟨hat, hsegments⟩
    · refine ⟨bias + offset, by rw [List.findSome?_cons, hat], ?_⟩
      rw [hsegments] at hg
      rcases List.mem_cons.1 hg with rfl | hg
      · exact UInt32.le_refl _
      · obtain ⟨next, hnext, hle⟩ := ih hrest hg
        obtain ⟨_, _, hbehind⟩ := hheader _ hat
        exact UInt32.le_trans (UInt32.le_of_lt (hbehind next hnext).1) hle
    · rw [hsegments] at hg
      rw [List.findSome?_cons, hat]
      exact ih hrest hg

theorem Ordered.pairwise_segments {R : Segment → Segment → Prop} (h : Ordered t bias lines)
    (hR : ∀ offset label line rest next g', Encloses t bias rest (bias + offset) next →
      next ≤ g'.start → R (segmentOf t bias offset label line rest) g') :
    (segments t bias lines).Pairwise R := by
  induction lines with
  | nil => exact .nil
  | cons line rest ih =>
    obtain ⟨hheader, hrest⟩ := h
    rcases header_or_not t bias line rest with ⟨offset, label, hat, hsegments⟩ | ⟨_, hsegments⟩
    · rw [hsegments]
      refine List.pairwise_cons.2 ⟨?_, ih hrest⟩
      intro g' hg'
      obtain ⟨next, hnext, hle⟩ := hrest.le_start hg'
      obtain ⟨hsorted, hstart, hbehind⟩ := hheader _ hat
      obtain ⟨hlt, hbelow⟩ := hbehind next hnext
      exact hR offset label line rest next g' ⟨hnext, hlt, hsorted, hstart, hbelow⟩ hle
    · rw [hsegments]
      exact ih hrest

theorem Ordered.segments_pairwise (h : Ordered t bias lines) :
    (segments t bias lines).Pairwise fun g g' => g.start < g'.start ∧
      ∀ s, g.symbol? = some s → s.size ≠ 0 → s.last < g'.start := by
  apply h.pairwise_segments
  intro offset label line rest next g' hencloses hle
  obtain ⟨stop, hstop, hstop_le, hzero⟩ := stop_of_next hencloses
  refine ⟨UInt32.lt_of_lt_of_le hencloses.lt hle, fun s hs hsize => ?_⟩
  have hlast : (segmentOf t bias offset label line rest).last = stop - 1 := by
    rw [segmentOf, lastOf, hstop]
    rfl
  have hlt : s.last < stop := last_lt_of_stop hs hsize hlast fun hz =>
    ⟨(Padding.trim_of_text fun l hl => by
      rcases List.mem_cons.1 hl with rfl | hl
      · rfl
      · exact (hzero hz).2 l hl).2, (hzero hz).1⟩
  exact UInt32.lt_of_lt_of_le hlt (UInt32.le_trans hstop_le hle)

theorem pairwise_contributions {R : Segment → Segment → Prop}
    {S : ResolvedSymbol → ResolvedSymbol → Prop} (h : (segments t bias lines).Pairwise R)
    (hRS : ∀ g g', R g g' → ∀ s, g.symbol? = some s → ∀ s', g'.symbol? = some s' → S s s')
    (wanted : String → Bool) : (contributions t bias wanted lines).Pairwise S :=
  List.Pairwise.sublist (contributions_sublist t bias wanted lines)
    ((h.filter _).filterMap _ fun g g' hR s hs s' hs' => hRS g g' hR s hs s' hs')

theorem Ordered.contributions_pairwise (h : Ordered t bias lines) (wanted : String → Bool) :
    (contributions t bias wanted lines).Pairwise ResolvedSymbol.Before := by
  refine pairwise_contributions h.segments_pairwise ?_ wanted
  rintro g g' ⟨hstart, hlast⟩ s hs s' hs'
  obtain ⟨_, hbase, _⟩ := Segment.of_symbol? hs
  obtain ⟨_, hbase', _⟩ := Segment.of_symbol? hs'
  rw [ResolvedSymbol.Before, hbase, hbase']
  exact ⟨hstart, hlast s hs⟩

/-! ## Where code stands -/

theorem addresses_bodyOf (t : Target) (bias : Address) (rest : List String) :
    ((bodyOf t bias rest).filterMap (·.address)).Sublist
      (instructionAddresses t bias (upToHeader t bias rest)) := by
  have hline : ∀ line ∈ (upToHeader t bias rest).takeWhile fun line =>
      (sentinelAt? t bias line).isNone, (bodyLine t bias line).address = codeAt? t bias line := by
    intro line hline
    have hsentinel := List.mem_takeWhile_imp hline
    have hheader := List.mem_takeWhile_imp (List.takeWhile_sublist _ |>.mem hline)
    unfold bodyLine codeAt?
    cases hk : LineKind.ofLine t line.toList <;>
      simp_all [headerAt?, sentinelAt?, codeLine, LineKind.codeAddress?]
  rw [bodyOf, List.filterMap_map, Function.comp_def, List.filterMap_congr hline]
  exact (List.takeWhile_sublist _).filterMap _

theorem addresses_segmentOf (t : Target) (bias : Address) (offset : UInt32) (label line : String)
    (rest : List String) :
    (segmentOf t bias offset label line rest).body.filterMap (·.address) =
      (bodyOf t bias rest).filterMap (·.address) := rfl

theorem Ordered.addresses_body (h : Ordered t bias lines) {g : Segment}
    (hg : g ∈ segments t bias lines) :
    (g.body.filterMap (·.address)).Pairwise (· < ·) ∧
      ∀ a ∈ g.body.filterMap (·.address), g.start ≤ a := by
  induction lines with
  | nil => cases hg
  | cons line rest ih =>
    obtain ⟨hheader, hrest⟩ := h
    rcases header_or_not t bias line rest with ⟨offset, label, hat, hsegments⟩ | ⟨_, hsegments⟩
    · rw [hsegments] at hg
      rcases List.mem_cons.1 hg with rfl | hg
      · obtain ⟨hsorted, hstart, _⟩ := hheader _ hat
        rw [addresses_segmentOf]
        have hsub := addresses_bodyOf t bias rest
        exact ⟨hsorted.sublist hsub, fun a ha => hstart a (hsub.mem ha)⟩
      · exact ih hrest hg
    · rw [hsegments] at hg
      exact ih hrest hg

theorem Ordered.addresses_lt (h : Ordered t bias lines) :
    (segments t bias lines).Pairwise fun g g' =>
      ∀ a ∈ g.body.filterMap (·.address), a < g'.start := by
  apply h.pairwise_segments
  intro offset label line rest next g' hencloses hle a ha
  rw [addresses_segmentOf] at ha
  have hmem := (addresses_bodyOf t bias rest).mem ha
  exact UInt32.lt_of_lt_of_le (hencloses.lt_next a hmem) hle

theorem Segment.lines_of_symbol? {g : Segment} {s : ResolvedSymbol} (h : g.symbol? = some s) :
    s.lines = (Padding.trim g.body).1 := by
  simp only [Segment.symbol?, Option.ite_none_left_eq_some, Option.some.injEq] at h
  rw [← h.2]

theorem Segment.addresses_sublist {g : Segment} {s : ResolvedSymbol} (h : g.symbol? = some s) :
    (s.lines.filterMap (·.address)).Sublist (g.body.filterMap (·.address)) := by
  rw [lines_of_symbol? h]
  exact (Padding.trim_sublist g.body).filterMap _

theorem Ordered.lines_lt (h : Ordered t bias lines) (wanted : String → Bool) :
    (contributions t bias wanted lines).Pairwise fun s s' =>
      ∀ a ∈ s.lines.filterMap (·.address), a < s'.base := by
  refine pairwise_contributions h.addresses_lt ?_ wanted
  intro g g' hlt s hs s' hs' a ha
  obtain ⟨_, hbase, _⟩ := Segment.of_symbol? hs'
  rw [hbase]
  exact hlt a ((Segment.addresses_sublist hs).mem ha)

theorem Ordered.le_lines (h : Ordered t bias lines) {s : ResolvedSymbol}
    (hs : s ∈ contributions t bias wanted lines) :
    ∀ a ∈ s.lines.filterMap (·.address), s.base ≤ a := by
  obtain ⟨g, hg, _, hsymbol⟩ := exists_segment_of_mem hs
  obtain ⟨_, hbase, _⟩ := Segment.of_symbol? hsymbol
  intro a ha
  rw [hbase]
  exact (h.addresses_body hg).2 a ((Segment.addresses_sublist hsymbol).mem ha)

end Listing

end TraceCoverage

import TraceCoverage.Proofs.Listing.Segments
import TraceCoverage.Proofs.Run.Registry
import TraceCoverage.Proofs.Trace.Evidence
import Mathlib.Data.List.Nodup

/-!
# A run, symbol by symbol

Each recording brings one part to a symbol, or none. A run that succeeds leaves for each wanted
name what its parts make in the order of the recordings: the first one places the symbol, and the
maps of all are merged.
-/

namespace TraceCoverage

def Registry.wanting (names : List String) : Registry := names.foldl insert {}

namespace Pipeline

/-- What one executable brings to a symbol: the symbol as it has it, and its traced map. -/
structure Part where
  source : Nat
  symbol : ResolvedSymbol
  map : CoverageMap

namespace Recording

variable (t : Target) (format : TraceFormat) (wanted : String → Bool) (name : String)
  (rec : Recording)

def symbols : List ResolvedSymbol :=
  Listing.contributions t rec.executable.loadAddress wanted rec.listing

def built : Executable := (Listing.read t wanted rec.executable { lines := rec.listing }).state

def entries : List (List TraceEntry) := rec.traces.map (·.filterMap format.entry?)

def traced : Executable := replayAll format (rec.built t wanted) rec.traces

def part? : Option Part :=
  match (rec.symbols t wanted).find? (·.name == name), (rec.traced t format wanted).maps[name]? with
  | some symbol, some map => some { source := rec.executable.id, symbol, map }
  | _, _ => none

variable {t format wanted name rec}

theorem built_spec (t : Target) (wanted : String → Bool) (h : rec.executable.Fresh) :
    rec.executable.Built (rec.symbols t wanted) (rec.built t wanted) :=
  (Listing.read_spec t wanted h rec.listing).2

theorem readOne_eq (h : rec.executable.Fresh) :
    readOne t wanted rec =
      .ok { executable := rec.built t wanted, resolved := rec.symbols t wanted } := by
  rw [readOne, (Listing.read_spec t wanted h rec.listing).1]
  rfl

theorem traced_eq : rec.traced t format wanted =
    (rec.built t wanted).mark ((rec.built t wanted).evidences (rec.entries format)) :=
  Executable.replayAll_eq_mark format _ _

theorem find?_symbols (h : rec.executable.Fresh) {s : ResolvedSymbol} :
    (rec.symbols t wanted).find? (·.name == name) = some s ↔
      s ∈ rec.symbols t wanted ∧ s.name = name := by
  constructor
  · intro hs
    exact ⟨List.mem_of_find?_eq_some hs, by simpa using List.find?_some hs⟩
  · rintro ⟨hs, rfl⟩
    cases hfind : (rec.symbols t wanted).find? (·.name == s.name) with
    | none => exact absurd (List.find?_eq_none.1 hfind s hs) (by simp)
    | some s' =>
      have hname : s'.name = s.name := by simpa using List.find?_some hfind
      have := List.inj_on_of_nodup_map (built_spec t wanted h).distinct
        (List.mem_of_find?_eq_some hfind) hs
      rw [this hname]

theorem part?_eq_some (h : rec.executable.Fresh) {p : Part}
    (hp : rec.part? t format wanted name = some p) :
    p.source = rec.executable.id ∧ p.symbol ∈ rec.symbols t wanted ∧ p.symbol.name = name ∧
      ∃ m, (rec.built t wanted).maps[name]? = some m ∧ p.symbol.Draws m ∧
        p.map = m.mark ((rec.built t wanted).evidences (rec.entries format) name) := by
  unfold part? at hp
  split at hp
  next s m hs hm =>
    obtain rfl := Option.some.inj hp
    obtain ⟨hmem, hname⟩ := (find?_symbols h).1 hs
    obtain ⟨m₀, hm₀, hdraws⟩ := (built_spec t wanted h).mapped s hmem
    rw [hname] at hm₀
    rw [traced_eq, Executable.getElem?_maps_mark, hm₀, Option.map_some, Option.some.injEq] at hm
    exact ⟨rfl, hmem, hname, m₀, hm₀, hdraws, hm.symm⟩
  next => cases hp

theorem byte_part {p : Part} {i : Nat} (hfresh : rec.executable.Fresh)
    (hp : rec.part? t format wanted name = some p) (hi : i < p.map.size) :
    p.map.byte i =
      (CodeLine.flagsAt p.symbol.lines (p.symbol.base + UInt32.ofNat i)).union
        ((rec.built t wanted).evidences (rec.entries format) name i) := by
  obtain ⟨_, _, _, m, _, hdraws, hmap⟩ := part?_eq_some hfresh hp
  rw [hmap, CoverageMap.size_mark] at hi
  rw [hmap, CoverageMap.byte_mark _ hi, hdraws.byte i hi, CoverageMap.address, hdraws.low]

theorem part?_eq (format : TraceFormat) (h : rec.executable.Fresh) :
    (rec.part? t format wanted name).map (·.symbol) =
        (rec.symbols t wanted).find? (·.name == name) ∧
      (rec.part? t format wanted name).map (·.map) = (rec.traced t format wanted).maps[name]? := by
  have hb := built_spec t wanted h
  unfold part?
  rw [traced_eq, Executable.getElem?_maps_mark]
  cases hs : (rec.symbols t wanted).find? (·.name == name) with
  | some s =>
    obtain ⟨hmem, hname⟩ := (find?_symbols h).1 hs
    obtain ⟨m, hm, _⟩ := hb.mapped s hmem
    rw [← hname, hm]
    exact ⟨rfl, rfl⟩
  | none =>
    have hm : (rec.built t wanted).maps[name]? = none := by
      rw [Option.eq_none_iff_forall_not_mem]
      intro m hm
      obtain ⟨s, hmem, hname, _⟩ := hb.getElem?_maps_iff.1 hm
      exact absurd ((find?_symbols h).2 ⟨hmem, hname⟩) (by simp [hs])
    rw [hm]
    exact ⟨rfl, rfl⟩

theorem exists_part_of_mem (format : TraceFormat) (h : rec.executable.Fresh) {s : ResolvedSymbol}
    (hs : s ∈ rec.symbols t wanted) :
    ∃ p, rec.part? t format wanted s.name = some p ∧ p.symbol = s := by
  have hfind : (rec.part? t format wanted s.name).map (·.symbol) = _ := (part?_eq format h).1
  rw [(find?_symbols h).2 ⟨hs, rfl⟩] at hfind
  exact Option.map_eq_some_iff.1 hfind

end Recording

/-! ## What parts make of a symbol -/

/-- The symbol that parts place and give a map, before it is analyzed. -/
def assembled (name : String) : List Part → Symbol
  | [] => { name }
  | p :: parts =>
    { name
      base := p.symbol.base
      lines := p.symbol.lines
      source := some p.source
      unified := (CoverageMap.ofSize p.symbol.size).toOption.map fun blank =>
        (p :: parts).foldl (fun m q => m.merge q.map) blank }

def concluded (s : Symbol) : Symbol := { s.analyze with stats := .ofSymbol s.analyze }

theorem foldl_adopting_of_resolved {s : Symbol} (hs : s.isResolved = true) (parts : List Part) :
    parts.foldl (fun s p => s.adopting p.source p.symbol) s = s := by
  induction parts with
  | nil => rfl
  | cons p rest ih =>
    rw [List.foldl_cons, Symbol.adopting, if_pos hs, ih]

theorem foldl_adopting_cons (name : String) (p : Part) (parts : List Part) :
    (p :: parts).foldl (fun s p => s.adopting p.source p.symbol) ({ name } : Symbol) =
      { name
        base := p.symbol.base
        lines := p.symbol.lines
        source := some p.source
        unified := (CoverageMap.ofSize p.symbol.size).toOption } :=
  foldl_adopting_of_resolved rfl parts

theorem foldl_merging (s : Symbol) (parts : List Part) :
    parts.foldl (fun s p => s.merging p.map) s =
      { s with unified := s.unified.map fun m => parts.foldl (fun m p => m.merge p.map) m } := by
  induction parts generalizing s with
  | nil => simp
  | cons p rest ih =>
    rw [List.foldl_cons, ih, Symbol.merging, Option.map_map]
    rfl

theorem foldl_parts (name : String) (parts : List Part) :
    parts.foldl (fun s p => s.merging p.map)
      (parts.foldl (fun s p => s.adopting p.source p.symbol) { name }) = assembled name parts := by
  cases parts with
  | nil => rfl
  | cons p rest =>
    rw [foldl_adopting_cons, foldl_merging]
    rfl

/-! ## What a run makes of the registry -/

theorem getElem?_insert (r : Registry) (name k : String) :
    (r.insert name).symbols[k]? =
      r.symbols[k]?.or (if name = k then some { name := k } else none) := by
  rw [Registry.insert, Std.ExtTreeMap.getElem?_insertIfNew]
  simp only [Std.LawfulEqCmp.compare_eq_iff_eq]
  by_cases h : name = k
  · subst h
    cases hs : r.symbols[name]? with
    | none =>
      have hno : name ∉ r.symbols := by
        rw [← Std.ExtTreeMap.contains_iff_mem, Std.ExtTreeMap.contains_eq_isSome_getElem?, hs]
        simp
      simp [hno]
    | some s =>
      have hin : name ∈ r.symbols :=
        Std.ExtTreeMap.contains_iff_mem.1 (TreeMap.contains_of_getElem? hs)
      simp [hin]
  · simp [h]

theorem getElem?_foldl_insert (names : List String) (r : Registry) (k : String) :
    (names.foldl Registry.insert r).symbols[k]? =
      r.symbols[k]?.or (if k ∈ names then some { name := k } else none) := by
  induction names generalizing r with
  | nil => simp
  | cons name rest ih =>
    rw [List.foldl_cons, ih, getElem?_insert, Option.or_assoc]
    congr 1
    by_cases h : name = k
    · simp [h]
    · simp [h, Ne.symm h]

theorem getElem?_wanting (names : List String) (k : String) :
    (Registry.wanting names).symbols[k]? = if k ∈ names then some { name := k } else none := by
  rw [Registry.wanting, getElem?_foldl_insert]
  simp

theorem contains_wanting {names : List String} {k : String} :
    (Registry.wanting names).contains k = true ↔ k ∈ names := by
  rw [Registry.contains, Std.ExtTreeMap.contains_eq_isSome_getElem?, getElem?_wanting]
  split
  next hk => simp [hk]
  next hk => simp [hk]

theorem settled_wanting (names : List String) :
    SymbolMap.Settled (Registry.wanting names).symbols := by
  intro k s hs hres
  rw [getElem?_wanting] at hs
  split at hs
  · cases hs
    cases hres
  · cases hs

section

variable (t : Target) (format : TraceFormat) (wanted : String → Bool) (recs : List Recording)

def reads : List ReadExecutable :=
  recs.map fun rec => { executable := rec.built t wanted, resolved := rec.symbols t wanted }

def traces : List Executable := recs.map (·.traced t format wanted)

def parts (name : String) : List Part := recs.filterMap (·.part? t format wanted name)

variable {t format wanted recs} (hfresh : ∀ rec ∈ recs, rec.executable.Fresh)
include hfresh

theorem mem_parts {name : String} {p : Part} (hp : p ∈ parts t format wanted recs name) :
    ∃ rec ∈ recs, p.symbol ∈ rec.symbols t wanted ∧ p.symbol.name = name := by
  obtain ⟨rec, hrec, hpart⟩ := List.mem_filterMap.1 hp
  obtain ⟨_, hmem, hname, _⟩ := Recording.part?_eq_some (hfresh rec hrec) hpart
  exact ⟨rec, hrec, hmem, hname⟩

theorem foldl_adopting_reads (k : String) (s : Symbol) :
    (reads t wanted recs).foldl (fun s e =>
        ((e.resolved.find? (·.name == k)).map fun p => s.adopting e.executable.id p).getD s) s =
      (parts t format wanted recs k).foldl (fun s p => s.adopting p.source p.symbol) s := by
  rw [reads, parts, List.foldl_map, List.foldl_filterMap]
  apply List.foldl_ext
  intro s rec hrec
  have hid : (rec.built t wanted).id = rec.executable.id := by
    rw [(Recording.built_spec t wanted (hfresh rec hrec)).frame]
  rw [← (Recording.part?_eq format (hfresh rec hrec)).1, hid]
  cases hp : rec.part? t format wanted k with
  | none => rfl
  | some p =>
    rw [← (Recording.part?_eq_some (hfresh rec hrec) hp).1]
    rfl

theorem foldl_merging_traces (k : String) (s : Symbol) :
    (traces t format wanted recs).foldl
        (fun s e => (e.maps[k]?.map fun m => s.merging m).getD s) s =
      (parts t format wanted recs k).foldl (fun s p => s.merging p.map) s := by
  rw [traces, parts, List.foldl_map, List.foldl_filterMap]
  apply List.foldl_ext
  intro s rec hrec
  rw [← (Recording.part?_eq format (hfresh rec hrec)).2]
  cases rec.part? t format wanted k <;> rfl

variable {r : Registry}

theorem adoptAll_of_ok (format : TraceFormat) (hr : SymbolMap.Settled r.symbols)
    (h : (adoptAll r (reads t wanted recs)).result = .ok ()) (k : String) :
    (adoptAll r (reads t wanted recs)).state.symbols[k]? = r.symbols[k]?.map fun s =>
      (parts t format wanted recs k).foldl (fun s p => s.adopting p.source p.symbol) s := by
  rw [(symbols_adoptAll hr h).1, SymbolMap.getElem?_foldl ?_]
  · congr 1
    funext s
    exact foldl_adopting_reads hfresh k s
  · intro t' e he
    obtain ⟨rec, hrec, rfl⟩ := List.mem_map.1 he
    exact SymbolMap.getElem?_foldl_modify _ _ _
      (Recording.built_spec t wanted (hfresh rec hrec)).distinct

theorem mergeAll_of_ok (h : (mergeAll r (traces t format wanted recs)).result = .ok ())
    (k : String) :
    (mergeAll r (traces t format wanted recs)).state.symbols[k]? = r.symbols[k]?.map fun s =>
      (parts t format wanted recs k).foldl (fun s p => s.merging p.map) s := by
  rw [getElem?_mergeAll h]
  congr 1
  funext s
  exact foldl_merging_traces hfresh k s

end

/-! ## Runs -/

variable {t : Target} {format : TraceFormat} {recs : List Recording}

theorem mapM_readOne {wanted : String → Bool} (hfresh : ∀ rec ∈ recs, rec.executable.Fresh) :
    recs.mapM (readOne t wanted) = .ok (reads t wanted recs) := by
  induction recs with
  | nil => rfl
  | cons rec rest ih =>
    rw [List.forall_mem_cons] at hfresh
    rw [List.mapM_cons, Recording.readOne_eq hfresh.1, ih hfresh.2]
    rfl

theorem map_zip_reads {wanted : String → Bool} {f : ReadExecutable × Recording → Executable}
    (hf : ∀ rec, f ({ executable := rec.built t wanted, resolved := rec.symbols t wanted }, rec) =
      rec.traced t format wanted) :
    ((reads t wanted recs).zip recs).map f = traces t format wanted recs := by
  induction recs with
  | nil => rfl
  | cons rec rest ih =>
    rw [reads, List.map_cons, List.zip_cons_cons, List.map_cons, hf, traces, List.map_cons]
    exact congrArg _ ih

def conclusion (r : Registry) : Registry :=
  { r.analyze with
    symbols := r.analyze.symbols.map fun _ s => { s with stats := .ofSymbol s } }

theorem conclude_eq (r : Registry) :
    (conclude r).state = conclusion r ∧ (conclude r).result = .ok (conclusion r).totals :=
  ⟨rfl, rfl⟩

/-- Reading the listings of fresh executables and concluding never fail, so that adopting and merging
decide how a run ends. -/
theorem run_eq (hfresh : ∀ rec ∈ recs, rec.executable.Fresh) (r : Registry) :
    run t format r recs = do
      let adopted := adoptAll r (reads t r.contains recs)
      adopted.result.mapError (.listing <| .coverage ·)
      let merged := mergeAll adopted.state (traces t format r.contains recs)
      merged.result.mapError .coverage
      return (conclusion merged.state, (conclusion merged.state).totals) := by
  unfold run
  rw [mapM_readOne hfresh]
  simp only [Except.mapError, Bind.bind, Except.bind]
  rw [map_zip_reads fun _ => rfl]
  rfl

theorem run_eq_ok_iff (hfresh : ∀ rec ∈ recs, rec.executable.Fresh) {r r' : Registry}
    {totals : Totals} :
    run t format r recs = .ok (r', totals) ↔
      (adoptAll r (reads t r.contains recs)).result = .ok () ∧
        (mergeAll (adoptAll r (reads t r.contains recs)).state
          (traces t format r.contains recs)).result = .ok () ∧
        r' = conclusion (mergeAll (adoptAll r (reads t r.contains recs)).state
          (traces t format r.contains recs)).state ∧
        totals = r'.totals := by
  rw [run_eq hfresh]
  generalize adoptAll r (reads t r.contains recs) = adopted
  obtain ⟨state, result, _⟩ := adopted
  cases result with
  | error cause => simp [Except.mapError, Bind.bind, Except.bind]
  | ok _ =>
    dsimp only
    generalize mergeAll state (traces t format r.contains recs) = merged
    obtain ⟨state, result, _⟩ := merged
    cases result with
    | error cause => simp [Except.mapError, Bind.bind, Except.bind]
    | ok _ =>
      constructor
      · rintro ⟨⟩
        exact ⟨rfl, rfl, rfl, rfl⟩
      · rintro ⟨-, -, rfl, rfl⟩
        rfl

theorem getElem?_conclusion (r : Registry) (k : String) :
    (conclusion r).symbols[k]? = r.symbols[k]?.map concluded := by
  rw [conclusion, Std.ExtTreeMap.getElem?_map, Registry.analyze, Std.ExtTreeMap.getElem?_map,
    Option.map_map]
  rfl

section

variable {names : List String} (hfresh : ∀ rec ∈ recs, rec.executable.Fresh)
include hfresh

/-- What a run that succeeds leaves: each wanted symbol is made of its parts. -/
theorem run_of_ok {r : Registry} {totals : Totals}
    (h : run t format (.wanting names) recs = .ok (r, totals)) :
    totals = r.totals ∧ ∀ k, r.symbols[k]? =
      if k ∈ names then
        some (concluded
          (assembled k (parts t format (Registry.wanting names).contains recs k)))
      else none := by
  obtain ⟨hadopt, hmerge, rfl, rfl⟩ := (run_eq_ok_iff hfresh).1 h
  refine ⟨rfl, fun k => ?_⟩
  rw [getElem?_conclusion, mergeAll_of_ok hfresh hmerge,
    adoptAll_of_ok hfresh format (settled_wanting names) hadopt, getElem?_wanting]
  split
  next => simp only [Option.map_some, foldl_parts]
  next => rfl

variable (hsize : ∀ rec ∈ recs, ∀ s ∈ rec.symbols t (Registry.wanting names).contains, s.size ≠ 0)
include hsize

omit hfresh in
theorem adoptAll_reads_ok : (adoptAll (.wanting names)
    (reads t (Registry.wanting names).contains recs)).result = .ok () := by
  apply adoptAll_ok (settled_wanting names)
  intro e he p hp
  obtain ⟨rec, hrec, rfl⟩ := List.mem_map.1 he
  obtain ⟨g, _, hwanted, hg⟩ := Listing.exists_segment_of_mem hp
  exact ⟨(Listing.Segment.of_symbol? hg).1.symm ▸ hwanted, hsize rec hrec p hp⟩

theorem hasMap_adoptAll {k : String} {p : Part}
    (hp : p ∈ parts t format (Registry.wanting names).contains recs k) :
    (adoptAll (.wanting names)
      (reads t (Registry.wanting names).contains recs)).state.HasMap k := by
  have hk : k ∈ names := by
    obtain ⟨rec, hrec, hmem, hname⟩ := mem_parts hfresh hp
    obtain ⟨g, _, hwanted, hg⟩ := Listing.exists_segment_of_mem hmem
    rw [← (Listing.Segment.of_symbol? hg).1, hname] at hwanted
    exact contains_wanting.1 hwanted
  -- The part that came first gave the symbol its map.
  obtain ⟨first, rest, hparts⟩ : ∃ first rest,
      parts t format (Registry.wanting names).contains recs k = first :: rest :=
    List.exists_cons_of_ne_nil (List.ne_nil_of_mem hp)
  obtain ⟨rec, hrec, hmem, _⟩ := mem_parts hfresh (hparts ▸ List.mem_cons_self :
    first ∈ parts t format (Registry.wanting names).contains recs k)
  obtain ⟨blank, hblank⟩ := ofSize_ok (hsize rec hrec _ hmem)
  refine ⟨_, by rw [adoptAll_of_ok hfresh format (settled_wanting names) (adoptAll_reads_ok hsize),
    getElem?_wanting, if_pos hk, Option.map_some], ?_⟩
  rw [hparts, foldl_adopting_cons, hblank]
  rfl

/-- A run succeeds if no symbol is as large as the whole address space. -/
theorem run_ok : ∃ r totals, run t format (.wanting names) recs = .ok (r, totals) := by
  have hmerge : (mergeAll (adoptAll (.wanting names)
      (reads t (Registry.wanting names).contains recs)).state
      (traces t format (Registry.wanting names).contains recs)).result = .ok () := by
    apply mergeAll_ok
    intro e he k m hm
    obtain ⟨rec, hrec, rfl⟩ := List.mem_map.1 he
    rw [← (Recording.part?_eq format (hfresh rec hrec)).2, Option.map_eq_some_iff] at hm
    obtain ⟨p, hp, _⟩ := hm
    exact hasMap_adoptAll hfresh hsize (List.mem_filterMap.2 ⟨rec, hrec, hp⟩)
  exact ⟨_, _, (run_eq_ok_iff hfresh).2 ⟨adoptAll_reads_ok hsize, hmerge, rfl, rfl⟩⟩

end

end Pipeline

end TraceCoverage

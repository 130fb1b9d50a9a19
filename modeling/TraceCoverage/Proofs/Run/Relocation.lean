import TraceCoverage.Proofs.Run.Analysis
import TraceCoverage.Proofs.Symbol.Relocation
import TraceCoverage.Proofs.Trace.Relocation

/-!
# A run at other load addresses

Each operation on the registry does to the moved registry what it does to the other: adopting and
merging, one executable after the other, and then the analysis of every symbol. So a whole run over
executables that are loaded elsewhere ends in the same counts and in a report that is moved.
-/

namespace TraceCoverage

open Listing

/-! ## Registries -/

abbrev Biases := Nat → Address

/-- The symbol as the executable that placed it has it when it is loaded elsewhere. -/
def Symbol.relocate (bias : Biases) (s : Symbol) : Symbol :=
  match s.source with
  | some id => s.shift (bias id)
  | none => s

def Registry.relocate (bias : Biases) (r : Registry) : Registry :=
  { r with symbols := r.symbols.map fun _ s => s.relocate bias }

/-- A symbol that an executable placed fits when it moves, and one that none placed has no report
yet. -/
structure Symbol.Movable (bias : Biases) (s : Symbol) : Prop where
  fits id : s.source = some id → s.Fits (bias id)
  unplaced : s.source = none → s.ranges = [] ∧ s.branches = []

structure Registry.Moved (bias : Biases) (r r' : Registry) : Prop where
  eq : r' = r.relocate bias
  movable (name : String) (s : Symbol) : r.symbols[name]? = some s → s.Movable bias

/-- Two operations end alike, in states that are related. -/
structure Outcome.Related {σ ε α : Type} (R : σ → σ → Prop) (o o' : Outcome σ ε α) : Prop where
  state : R o.state o'.state
  result : o'.result = o.result

namespace Symbol

variable {bias : Biases} {s : Symbol}

@[simp]
theorem isResolved_relocate : (s.relocate bias).isResolved = s.isResolved := by
  unfold relocate
  cases h : s.source <;> simp [isResolved, shift, h]

@[simp]
theorem unified_relocate : (s.relocate bias).unified = s.unified := by
  unfold relocate
  cases s.source <;> rfl

theorem relocate_unified (m? : Option CoverageMap) :
    ({ s with unified := m? } : Symbol).relocate bias = { s.relocate bias with unified := m? } := by
  obtain ⟨_, _, _, source, _, _, _, _⟩ := s
  cases source <;> rfl

theorem Movable.set_unified (h : s.Movable bias) (m? : Option CoverageMap) :
    ({ s with unified := m? } : Symbol).Movable bias where
  fits id hid :=
    have hfits := h.fits id hid
    ⟨hfits.base, hfits.lines⟩
  unplaced := h.unplaced

end Symbol

namespace Registry

variable {bias : Biases} {r r' : Registry} {name : String}

theorem getElem?_relocate : (r.relocate bias).symbols[name]? =
    r.symbols[name]?.map (Symbol.relocate bias) := by
  rw [relocate, Std.ExtTreeMap.getElem?_map]

theorem relocate_insert (t : SymbolMap) (s : Symbol) :
    (t.insert name s).map (fun _ s => s.relocate bias) =
      (t.map fun _ s => s.relocate bias).insert name (s.relocate bias) := by
  apply Std.ExtTreeMap.ext_getElem?
  intro k
  simp only [Std.ExtTreeMap.getElem?_map, TreeMap.getElem?_insert_eq]
  split <;> rfl

theorem Moved.insert (h : r.Moved bias r') {s : Symbol} (analyzed : Bool)
    (hs : s.Movable bias) :
    Moved bias { symbols := r.symbols.insert name s, analyzed }
      { symbols := r'.symbols.insert name (s.relocate bias), analyzed } where
  eq := by
    rw [h.eq, relocate, relocate, relocate_insert]
  movable k s' hk := by
    rw [TreeMap.getElem?_insert_eq] at hk
    split at hk
    · cases hk
      exact hs
    · exact h.movable k s' hk

section

variable (h : r.Moved bias r')
include h

theorem Moved.getElem? : r'.symbols[name]? = r.symbols[name]?.map (Symbol.relocate bias) := by
  rw [h.eq, getElem?_relocate]

theorem Moved.analyzed : r'.analyzed = r.analyzed := by
  rw [h.eq]
  rfl

theorem Moved.unifiedMap (name : String) (size : UInt32) :
    Outcome.Related (Moved bias) (r.unifiedMap name size) (r'.unifiedMap name size) := by
  unfold Registry.unifiedMap
  rw [h.getElem?]
  cases hs : r.symbols[name]? with
  | none => exact ⟨h, rfl⟩
  | some s =>
    simp only [Option.map_some, Symbol.unified_relocate]
    cases s.unified with
    | some m => exact ⟨h, rfl⟩
    | none =>
      cases CoverageMap.ofSize size with
      | error cause => exact ⟨h, rfl⟩
      | ok m =>
        refine ⟨?_, rfl⟩
        simp only [← Symbol.relocate_unified, h.analyzed]
        exact h.insert r.analyzed ((h.movable name s hs).set_unified (some m))

theorem Moved.adopt (name : String) {p : ResolvedSymbol} {id : Nat} (hp : p.Fits (bias id)) :
    Outcome.Related (Moved bias) (r.adopt name p.base p.lines id)
      (r'.adopt name (p.shift (bias id)).base (p.shift (bias id)).lines id) := by
  unfold Registry.adopt
  rw [h.getElem?]
  cases hs : r.symbols[name]? with
  | none => exact ⟨h, rfl⟩
  | some s =>
    simp only [Option.map_some, Symbol.isResolved_relocate]
    split
    next => exact ⟨h, rfl⟩
    next hres =>
      have hsource : s.source = none := by
        simpa [Symbol.isResolved] using hres
      obtain ⟨hranges, hbranches⟩ := (h.movable name s hs).unplaced hsource
      have hadopted : { s.relocate bias with
            base := (p.shift (bias id)).base
            lines := (p.shift (bias id)).lines
            source := some id } =
          ({ s with base := p.base, lines := p.lines, source := some id } : Symbol).relocate bias := by
        simp only [Symbol.relocate, hsource, Symbol.shift, ResolvedSymbol.shift, hranges, hbranches,
          List.map_nil]
      refine ⟨?_, rfl⟩
      simp only [hadopted, h.analyzed]
      refine h.insert r.analyzed ⟨fun id' hid => ?_, fun hnone => by cases hnone⟩
      obtain rfl := Option.some.inj hid
      exact ⟨hp.last.of_le hp.base, hp.lines⟩

theorem Moved.merge (name : String) {m m' : CoverageMap} (hm : m'.flags = m.flags) :
    Outcome.Related (Moved bias) (r.merge name m) (r'.merge name m') := by
  unfold Registry.merge
  rw [h.getElem?]
  cases hs : r.symbols[name]? with
  | none => exact ⟨h, rfl⟩
  | some s =>
    simp only [Option.map_some, Symbol.unified_relocate]
    cases s.unified with
    | none => exact ⟨h, rfl⟩
    | some u =>
      have hmerge : u.merge m' = u.merge m := by
        simp only [CoverageMap.merge, hm]
      refine ⟨?_, rfl⟩
      simp only [← Symbol.relocate_unified, hmerge]
      exact h.insert false ((h.movable name s hs).set_unified _)

end

end Registry

/-! ## Executables, one after the other -/

namespace Pipeline

theorem forEach_related {σ ε α α' β : Type} {R : σ → σ → Prop} {S : α → α' → Prop}
    {step : σ → α → Outcome σ ε β} {step' : σ → α' → Outcome σ ε β}
    (hstep : ∀ s s' a a', R s s' → S a a' → Outcome.Related R (step s a) (step' s' a'))
    {l : List α} {l' : List α'} (hl : List.Forall₂ S l l') {s s' : σ} (hs : R s s') :
    Outcome.Related R (forEach step s l) (forEach step' s' l') := by
  induction hl generalizing s s' with
  | nil => exact ⟨hs, rfl⟩
  | @cons a a' _ _ ha _ ih =>
    obtain ⟨hstate, hresult⟩ := hstep s s' a a' hs ha
    unfold forEach
    simp only [hresult]
    cases (step s a).result with
    | error cause => exact ⟨hstate, rfl⟩
    | ok b => exact ⟨(ih hstate).state, (ih hstate).result⟩

structure ReadMoved (bias : Biases) (e e' : ReadExecutable) : Prop where
  id : e'.executable.id = e.executable.id
  resolved : e'.resolved = e.resolved.map (ResolvedSymbol.shift (bias e.executable.id))
  fits : ∀ s ∈ e.resolved, s.Fits (bias e.executable.id)

section

variable {bias : Biases} {r r' : Registry} (h : r.Moved bias r')
include h

theorem adoptInto_related {p : ResolvedSymbol} {id : Nat} (hp : p.Fits (bias id)) :
    Outcome.Related (Registry.Moved bias) (p.adoptInto r id)
      ((p.shift (bias id)).adoptInto r' id) := by
  obtain ⟨hstate, hresult⟩ := h.unifiedMap p.name p.size
  unfold ResolvedSymbol.adoptInto
  have hmade : r'.unifiedMap (p.shift (bias id)).name (p.shift (bias id)).size =
      r'.unifiedMap p.name p.size := rfl
  rw [hmade]
  simp only [hresult]
  cases (r.unifiedMap p.name p.size).result with
  | error cause => exact ⟨hstate, rfl⟩
  | ok m => exact hstate.adopt p.name hp

theorem adoptAll_related {es es' : List ReadExecutable} (hes : List.Forall₂ (ReadMoved bias) es es') :
    Outcome.Related (Registry.Moved bias) (adoptAll r es) (adoptAll r' es') := by
  refine forEach_related (fun r r' e e' h he => ?_) hes h
  have hresolved : List.Forall₂
      (fun p p' => p.Fits (bias e.executable.id) ∧ p' = p.shift (bias e.executable.id))
      e.resolved e'.resolved := by
    rw [he.resolved, List.forall₂_map_right_iff, List.forall₂_same]
    exact fun p hp => ⟨he.fits p hp, rfl⟩
  refine forEach_related (fun r r' p p' h hp => ?_) hresolved h
  rw [he.id, hp.2]
  exact adoptInto_related h hp.1

omit h in
theorem mergeStep_related {o o' : Outcome Registry CoverageError Nat}
    (ho : Outcome.Related (Registry.Moved bias) o o') {entry entry' : String × CoverageMap}
    (hentry : (entry'.1, entry'.2.flags) = (entry.1, entry.2.flags)) :
    Outcome.Related (Registry.Moved bias) (Executable.mergeStep o entry)
      (Executable.mergeStep o' entry') := by
  obtain ⟨hname, hflags⟩ := Prod.ext_iff.1 hentry
  have hname : entry'.1 = entry.1 := hname
  have hmerge := ho.state.merge entry.1 hflags
  rw [← hname] at hmerge
  unfold Executable.mergeStep
  simp only [ho.result]
  cases o.result with
  | error cause => exact ho
  | ok n => exact ⟨hname ▸ hmerge.state, by rw [hmerge.result, hname]⟩

omit h in
theorem foldl_mergeStep_related {entries entries' : List (String × CoverageMap)}
    (hentries : List.Forall₂
      (fun entry entry' => (entry'.1, entry'.2.flags) = (entry.1, entry.2.flags)) entries entries')
    {o o' : Outcome Registry CoverageError Nat} (ho : Outcome.Related (Registry.Moved bias) o o') :
    Outcome.Related (Registry.Moved bias) (entries.foldl Executable.mergeStep o)
      (entries'.foldl Executable.mergeStep o') := by
  induction hentries generalizing o o' with
  | nil => exact ho
  | cons hentry _ ih => exact ih (mergeStep_related ho hentry)

/-- What merging the maps of an executable does depends on their flags, not on their places. -/
theorem mergeInto_related {e e' : Executable}
    (hmaps : ∀ name : String, e'.maps[name]?.map (·.flags) = e.maps[name]?.map (·.flags)) :
    Outcome.Related (Registry.Moved bias) (e.mergeInto r) (e'.mergeInto r') := by
  have hflags : (e'.maps.map fun _ m => m.flags) = e.maps.map fun _ m => m.flags := by
    apply Std.ExtTreeMap.ext_getElem?
    intro name
    rw [Std.ExtTreeMap.getElem?_map, Std.ExtTreeMap.getElem?_map, hmaps]
  have hentries : List.Forall₂ (fun entry entry' : String × CoverageMap =>
      (entry'.1, entry'.2.flags) = (entry.1, entry.2.flags)) e.maps.toList e'.maps.toList := by
    have hlist := congrArg Std.ExtTreeMap.toList hflags.symm
    rw [Std.ExtTreeMap.toList_map, Std.ExtTreeMap.toList_map, ← List.forall₂_eq_eq_eq,
      List.forall₂_map_left_iff, List.forall₂_map_right_iff] at hlist
    exact hlist.imp fun _ _ h => h.symm
  exact foldl_mergeStep_related hentries ⟨h, rfl⟩

theorem mergeAll_related {es es' : List Executable}
    (hes : List.Forall₂ (fun e e' => ∃ b, e.Moved b e') es es') :
    Outcome.Related (Registry.Moved bias) (mergeAll r es) (mergeAll r' es') := by
  refine forEach_related (fun r r' e e' h he => ?_) hes h
  obtain ⟨b, he⟩ := he
  exact mergeInto_related h fun name =>
    (map_eq_map_of_rel (he.maps name) fun _ _ hm => hm.flags.symm).symm

end

/-! ## Runs -/

section

variable {bias : Biases} {r r' : Registry}

theorem concluded_relocate {s : Symbol} (h : s.Movable bias) :
    concluded (s.relocate bias) = (concluded s).relocate bias := by
  have hsource : (concluded s).source = s.source := by
    rw [concluded, Symbol.analyze]
    split <;> rfl
  rw [Symbol.relocate, Symbol.relocate, hsource]
  cases hs : s.source with
  | none => rfl
  | some id =>
    simp only [concluded, (h.fits id hs).analyze_shift, Statistics.ofSymbol_shift]
    rfl

theorem digest_relocate (s : Symbol) : (s.relocate bias).digest = s.digest := by
  rw [Symbol.digest, Symbol.digest, Symbol.isResolved_relocate, Symbol.relocate]
  cases s.source <;> rfl

theorem conclusion_moved (h : r.Moved bias r') : conclusion r' = (conclusion r).relocate bias := by
  have hsymbols : (conclusion r').symbols = ((conclusion r).relocate bias).symbols := by
    apply Std.ExtTreeMap.ext_getElem?
    intro k
    rw [getElem?_conclusion, h.getElem?, Registry.getElem?_relocate, getElem?_conclusion]
    cases hs : r.symbols[k]? with
    | none => rfl
    | some s => exact congrArg some (concluded_relocate (h.movable k s hs))
  exact congrArg (Registry.mk · true) hsymbols

theorem totals_relocate (r : Registry) : (r.relocate bias).totals = r.totals := by
  apply Registry.totals_congr
  intro k
  rw [Registry.getElem?_relocate, Option.map_map]
  congr 1
  funext s
  exact digest_relocate s

theorem moved_wanting (bias : Biases) (names : List String) :
    (Registry.wanting names).Moved bias (.wanting names) := by
  have hblank : ∀ (k : String) (s : Symbol), (Registry.wanting names).symbols[k]? = some s →
      s = { name := k } := by
    intro k s hs
    rw [getElem?_wanting] at hs
    split at hs
    · exact (Option.some.inj hs).symm
    · cases hs
  constructor
  case eq =>
    have hsymbols : (Registry.wanting names).symbols =
        ((Registry.wanting names).relocate bias).symbols := by
      apply Std.ExtTreeMap.ext_getElem?
      intro k
      rw [Registry.getElem?_relocate]
      cases hs : (Registry.wanting names).symbols[k]? with
      | none => rfl
      | some s =>
        rw [hblank k s hs]
        rfl
    exact congrArg (Registry.mk · (Registry.wanting names).analyzed) hsymbols
  case movable =>
    intro k s hs
    rw [hblank k s hs]
    exact ⟨fun _ hid => (nomatch hid), fun _ => ⟨rfl, rfl⟩⟩

end

namespace Recording

/-- The recording of an executable that is loaded higher by `b`. No address of its listing wraps,
and no header or sentinel at address 0 closes a symbol. -/
structure Moved (t : Target) (format : TraceFormat) (wanted : String → Bool) (b : Address)
    (rec rec' : Recording) : Prop where
  fresh : rec.executable.Fresh
  executable : rec'.executable =
    { rec.executable with loadAddress := b + rec.executable.loadAddress }
  listing : rec'.listing = rec.listing
  fits : Fits t rec.executable.loadAddress b rec.listing
  closed : closesAtZero t rec.executable.loadAddress wanted rec.listing = false
  traces : List.Forall₂ (format.Moved b) rec.traces rec'.traces

namespace Moved

variable {t : Target} {format : TraceFormat} {wanted : String → Bool} {b : Address}
  {rec rec' : Recording} (h : Moved t format wanted b rec rec')
include h

theorem fresh' : rec'.executable.Fresh := by
  rw [h.executable]
  exact ⟨h.fresh.symbols, h.fresh.maps, h.fresh.targets⟩

theorem symbols : rec'.symbols t wanted = (rec.symbols t wanted).map (ResolvedSymbol.shift b) := by
  rw [Recording.symbols, h.listing, h.executable]
  exact contributions_shift h.fits h.closed

theorem fits_symbols : ∀ s ∈ rec.symbols t wanted, s.Fits b :=
  fits_contributions h.fits h.closed

theorem built : (rec.built t wanted).Moved b (rec'.built t wanted) :=
  Executable.Built.moved (built_spec t wanted h.fresh) (h.symbols ▸ built_spec t wanted h.fresh')
    h.executable h.fits_symbols

theorem traced : (rec.traced t format wanted).Moved b (rec'.traced t format wanted) :=
  h.built.replayAll h.traces

end Moved

end Recording

/-! ## Runs over moved recordings -/

variable {t : Target} {format : TraceFormat} {names : List String} {bias : Biases}
  {recs recs' : List Recording}

section

variable {wanted : String → Bool}
  (h : List.Forall₂ (fun rec rec' => Recording.Moved t format wanted (bias rec.executable.id)
    rec rec') recs recs')
include h

theorem fresh_of_moved :
    (∀ rec ∈ recs, rec.executable.Fresh) ∧ ∀ rec ∈ recs', rec.executable.Fresh :=
  ⟨((List.forall₂_and_left _ _).1 (h.imp fun _ _ hrec => ⟨hrec.fresh, hrec⟩)).1,
    ((List.forall₂_and_left _ _).1 (h.flip.imp fun _ _ hrec => ⟨hrec.fresh', hrec⟩)).1⟩

theorem reads_moved : List.Forall₂ (ReadMoved bias) (reads t wanted recs) (reads t wanted recs') := by
  rw [reads, reads, List.forall₂_map_left_iff, List.forall₂_map_right_iff]
  refine h.imp fun rec rec' hrec => ?_
  have hid : (rec.built t wanted).id = rec.executable.id := by
    rw [(Recording.built_spec t _ hrec.fresh).frame]
  constructor
  case id => rw [hrec.built.frame]
  case resolved =>
    rw [hid]
    exact hrec.symbols
  case fits =>
    rw [hid]
    exact hrec.fits_symbols

theorem traces_moved : List.Forall₂ (fun e e' : Executable => ∃ b, e.Moved b e')
    (traces t format wanted recs) (traces t format wanted recs') := by
  rw [traces, traces, List.forall₂_map_left_iff, List.forall₂_map_right_iff]
  exact h.imp fun rec rec' hrec => ⟨_, hrec.traced⟩

end

/-- Executables that are loaded elsewhere, each at its own place. What is read from their listings
is the same but for the load address. Any traces whose program counters are moved along set the same
flags in their maps and count the same. The whole run ends alike: with the same totals, unified maps
and counts, and with a report that is moved. -/
theorem run_moved
    (h : List.Forall₂ (fun rec rec' => Recording.Moved t format (Registry.wanting names).contains
      (bias rec.executable.id) rec rec') recs recs') :
    List.Forall₂
      (fun rec rec' =>
        let b := bias rec.executable.id
        let read := Listing.read t (Registry.wanting names).contains rec.executable
          { lines := rec.listing }
        let read' := Listing.read t (Registry.wanting names).contains rec'.executable
          { lines := rec'.listing }
        (∃ found, read.result = .ok found ∧
          read'.result = .ok (found.map (ResolvedSymbol.shift b))) ∧
          read.state.Moved b read'.state ∧
          ∀ before before' lines lines', List.Forall₂ (format.Moved b) before before' →
            format.Moved b lines lines' →
            let replay := (replayAll format read.state before).replay format { lines }
            let replay' := (replayAll format read'.state before').replay format { lines := lines' }
            replay'.result = replay.result ∧ replay.state.Moved b replay'.state)
      recs recs' ∧
    run t format (.wanting names) recs' =
      (run t format (.wanting names) recs).map fun (r, totals) => (r.relocate bias, totals) := by
  obtain ⟨hfresh, hfresh'⟩ := fresh_of_moved h
  refine ⟨h.imp fun rec rec' hrec => ?_, ?_⟩
  · obtain ⟨hread, _⟩ := read_spec t (Registry.wanting names).contains hrec.fresh rec.listing
    obtain ⟨hread', _⟩ := read_spec t (Registry.wanting names).contains hrec.fresh'
      rec'.listing
    refine ⟨⟨_, hread, hread'.trans (congrArg Except.ok hrec.symbols)⟩, hrec.built, ?_⟩
    intro before before' lines lines' hbefore hlines
    obtain ⟨hstate, hresult⟩ := (hrec.built.replayAll hbefore).replay hlines
    exact ⟨hresult, hstate⟩
  · -- Adopting and merging fail on both sides or on neither, so both runs take the same way.
    rw [run_eq hfresh, run_eq hfresh']
    obtain ⟨hadopted, hadopt⟩ := adoptAll_related (moved_wanting bias names) (reads_moved h)
    obtain ⟨hmerged, hmerge⟩ := mergeAll_related hadopted (traces_moved h)
    simp only [hadopt, hmerge, conclusion_moved hmerged, totals_relocate]
    cases (adoptAll (.wanting names) (reads t (Registry.wanting names).contains recs)).result with
    | error cause => rfl
    | ok _ =>
      cases (mergeAll _ (traces t format (Registry.wanting names).contains recs)).result with
      | error cause => rfl
      | ok _ => rfl

def loadedApart : Biases := fun id => if id = 0 then 0x40000000 else 0xf0000000

def skipAt40000100 : Recording where
  executable := { id := 0, file := "a.exe", loadAddress := 0x40000000 }
  listing := skipAt100.listing
  traces := [["40000100", "40000104"], ["40000100"]]

def skipAtF0000200 : Recording where
  executable := { id := 1, file := "b.exe", loadAddress := 0xf0000000 }
  listing := skipAt200.listing
  traces := [["f0000200", "f0000202", "f0000203"]]

theorem run_moved_skip :
    ∃ r totals, run i386 .pcs (.wanting ["f"]) [skipAt100, skipAt200] = .ok (r, totals) ∧
      run i386 .pcs (.wanting ["f"]) [skipAt40000100, skipAtF0000200] =
        .ok (r.relocate loadedApart, totals) := by
  have hmoved : List.Forall₂ (fun rec rec' => Recording.Moved i386 .pcs
      (Registry.wanting ["f"]).contains (loadedApart rec.executable.id) rec rec')
      [skipAt100, skipAt200] [skipAt40000100, skipAtF0000200] := by
    refine .cons ⟨⟨rfl, rfl, rfl⟩, rfl, rfl, ?_, ?_, ?_⟩
      (.cons ⟨⟨rfl, rfl, rfl⟩, rfl, rfl, ?_, ?_, ?_⟩ .nil)
    · decide +kernel
    · decide +kernel
    · exact .cons (show List.filterMap _ _ = _ by decide +kernel)
        (.cons (show List.filterMap _ _ = _ by decide +kernel) .nil)
    · decide +kernel
    · decide +kernel
    · exact .cons (show List.filterMap _ _ = _ by decide +kernel) .nil
  obtain ⟨r, totals, hrun⟩ : ∃ r totals,
      run i386 .pcs (.wanting ["f"]) [skipAt100, skipAt200] = .ok (r, totals) :=
    run_ok fresh_skip (by decide +kernel)
  refine ⟨r, totals, hrun, ?_⟩
  rw [(run_moved hmoved).2, hrun]
  rfl

end Pipeline

end TraceCoverage

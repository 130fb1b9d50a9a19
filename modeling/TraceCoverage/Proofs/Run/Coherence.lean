import TraceCoverage.Proofs.Run.Reanalysis
import TraceCoverage.Proofs.Symbol.Coherence

/-!
# Flags that fit together in every state

An analysis may read listings, adopt symbols, replay traces, merge and analyze in any order and as
often as it likes, and some of these steps may fail halfway. Each of them keeps the flags of every
byte fitting together, and what ran in a map of an executable runs on to the next start.
-/

namespace TraceCoverage

open CoverageMap

/-! ## Executables -/

namespace Executable

variable {fresh e : Executable} {symbols : List ResolvedSymbol} {name : String} {m : CoverageMap}

/-- The flags in all maps of the executable fit together, and what ran, ran to the end of its
instruction. -/
def Coherent (e : Executable) : Prop :=
  ∀ (name : String) m, e.maps[name]? = some m → m.Coherent ∧ m.Finishes

theorem Built.coherent (h : fresh.Built symbols e) : e.Coherent := by
  intro name m hm
  obtain ⟨s, _, _, hdraws⟩ := h.getElem?_maps_iff.1 hm
  refine ⟨coherent_of_lt fun i hi => ?_, fun i k hspans hran => ?_⟩
  · rw [hdraws.byte i hi]
    exact CodeLine.coherent_flagsAt _ _
  · rw [hdraws.byte i (Nat.lt_of_le_of_lt hspans.1 hspans.2.1), CodeLine.isExecuted_flagsAt] at hran
    cases hran

theorem Covers.spans {pc : Address} {i k : Nat} (hm : e.maps[name]? = some m)
    (h : e.Covers pc name i) (hspans : m.Spans i k) : e.Covers pc name k := by
  obtain ⟨m', j, hlookup, hoffset, hji⟩ := h
  obtain rfl := Option.some.inj (hm.symm.trans (getElem?_maps_of_lookup? hlookup))
  exact ⟨m, j, hlookup, hoffset, hji.trans hspans⟩

theorem branch_of_direction {trace : List TraceEntry} {k : Nat} (hm : e.maps[name]? = some m)
    (h : (∃ p ∈ trace.consecutivePairs, e.Jumps p name k) ∨
      ∃ p ∈ trace.consecutivePairs, e.FallsThrough p name k) :
    (m.byte k).isBranch = true ∧ ∃ x ∈ trace, e.Covers x.pc name k := by
  have hpair : ∀ p ∈ trace.consecutivePairs, ∀ m', e.lookup? p.1.pc = some (name, m') →
      m'.offset? p.1.pc = some k → (m'.byte k).isBranch = true →
      (m.byte k).isBranch = true ∧ ∃ x ∈ trace, e.Covers x.pc name k := by
    intro p hp m' hlookup hoffset hbranch
    obtain rfl := Option.some.inj (hm.symm.trans (getElem?_maps_of_lookup? hlookup))
    have hspans : m.Spans k k := spans_self (offset?_eq_some_iff.1 hoffset).1
    exact ⟨hbranch, p.1, (List.of_mem_zip hp).1, m, k, hlookup, hoffset, hspans⟩
  rcases h with ⟨p, hp, m', hlookup, hoffset, hbranch, _⟩ | ⟨p, hp, m', hlookup, hoffset, hbranch, _⟩
  · exact hpair p hp m' hlookup hoffset hbranch
  · exact hpair p hp m' hlookup hoffset hbranch

theorem Coherent.replay (h : e.Coherent) (format : TraceFormat) (stream : TextStream) :
    (e.replay format stream).state.Coherent := by
  intro name m' hm'
  rw [Executable.replay, run_eq_mark, getElem?_maps_mark, Option.map_eq_some_iff] at hm'
  obtain ⟨m, hm, rfl⟩ := hm'
  obtain ⟨hcoherent, hfinishes⟩ := h name m hm
  generalize stream.lines.filterMap format.entry? = trace
  refine ⟨coherent_of_lt fun k hk => ?_, fun i k hspans hran => ?_⟩
  · rw [size_mark] at hk
    rw [byte_mark _ hk]
    apply (hcoherent k).union_evidence
    simp only [decide_eq_true_eq]
    exact branch_of_direction hm
  · rw [evidence, spans_mark fun i => (inert_shown _ _ name i).1] at hspans
    have hi := Nat.lt_of_le_of_lt hspans.1 hspans.2.1
    rw [byte_mark _ hi, Flags.isExecuted_union, Bool.or_eq_true, evidence, isExecuted_shown] at hran
    rw [byte_mark _ hspans.2.1, Flags.isExecuted_union, Bool.or_eq_true, evidence, isExecuted_shown]
    rcases hran with hran | ⟨x, hx, hcovers⟩
    · exact .inl (hfinishes i k hspans hran)
    · exact .inr ⟨x, hx, hcovers.spans hm hspans⟩

end Executable

namespace Listing

open Executable

variable {fresh : Executable} {r : Reader} (t : Target) (wanted : String → Bool)

theorem run_reads (hr : r.Reads fresh) (lines : List String) :
    ∃ r', r.run t wanted lines = .ok r' ∧ r'.Reads fresh := by
  induction lines generalizing r with
  | nil => exact ⟨r, rfl, hr⟩
  | cons line rest ih =>
    obtain ⟨r₁, hstep, hr₁, _⟩ := step_spec t wanted hr line rest
    obtain ⟨r', hrun, hr'⟩ := ih hr₁
    refine ⟨r', ?_, hr'⟩
    rw [Reader.run, List.foldlM_cons, hstep]
    exact hrun

theorem coherent_read (hfresh : fresh.Fresh) (stream : TextStream) :
    (read t wanted fresh stream).state.Coherent := by
  have hr : Reader.Reads fresh { executable := fresh } := ⟨hfresh.built, by simp⟩
  cases hfailure : stream.failure with
  | none =>
    obtain ⟨lines, failure⟩ := stream
    obtain rfl : failure = none := hfailure
    exact (read_spec t wanted hfresh lines).2.coherent
  | some cause =>
    obtain ⟨r, hrun, hreads⟩ := run_reads t wanted hr stream.lines
    rw [read, hrun]
    simp only [hfailure]
    exact hreads.built.coherent

end Listing

/-! ## The registry -/

namespace Registry

variable {r : Registry}

def Coherent (r : Registry) : Prop :=
  ∀ (k : String) s, r.symbols[k]? = some s → ∀ u ∈ s.unified, u.Coherent

theorem Coherent.set {analyzed : Bool} (h : r.Coherent) {name : String} {s : Symbol}
    (hs : ∀ u ∈ s.unified, u.Coherent) :
    Coherent { symbols := r.symbols.insert name s, analyzed } := by
  intro k s' hs'
  rw [TreeMap.getElem?_insert_eq] at hs'
  split at hs'
  next =>
    obtain rfl := Option.some.inj hs'
    exact hs
  next => exact h k s' hs'

theorem Coherent.insert (h : r.Coherent) (name : String) : (r.insert name).Coherent := by
  intro k s hs
  rw [Pipeline.getElem?_insert, Option.or_eq_some_iff] at hs
  rcases hs with hs | ⟨_, hs⟩
  · exact h k s hs
  · simp only [Option.ite_none_right_eq_some, Option.some.injEq] at hs
    rw [← hs.2]
    simp

theorem Coherent.unifiedMap (h : r.Coherent) (name : String) (size : UInt32) :
    (r.unifiedMap name size).state.Coherent := by
  unfold Registry.unifiedMap
  split
  next => exact h
  next s _ =>
    split
    next => exact h
    next =>
      split
      next => exact h
      next blank hblank =>
        apply h.set
        rintro u ⟨⟩
        exact coherent_ofSize hblank

theorem Coherent.adopt (h : r.Coherent) (name : String) (base : Address) (lines : List CodeLine)
    (source : Nat) : (r.adopt name base lines source).state.Coherent := by
  unfold Registry.adopt
  split
  next => exact h
  next s hs =>
    split
    next => exact h
    next => exact h.set (h name s hs)

theorem Coherent.adoptInto (h : r.Coherent) (s : ResolvedSymbol) (source : Nat) :
    (s.adoptInto r source).state.Coherent := by
  unfold ResolvedSymbol.adoptInto
  simp only
  split
  next => exact h.unifiedMap s.name s.size
  next => exact (h.unifiedMap s.name s.size).adopt _ _ _ _

theorem Coherent.merge (h : r.Coherent) (name : String) {m : CoverageMap} (hm : m.Coherent) :
    (r.merge name m).state.Coherent := by
  unfold Registry.merge
  split
  next => exact h
  next s hs =>
    split
    next => exact h
    next unified hunified =>
      apply h.set
      rintro u ⟨⟩
      exact (h name s hs unified hunified).merge hm

theorem Coherent.foldl_mergeStep {entries : List (String × CoverageMap)}
    (hentries : ∀ entry ∈ entries, entry.2.Coherent) {o : Outcome Registry CoverageError Nat}
    (h : o.state.Coherent) : (entries.foldl Executable.mergeStep o).state.Coherent := by
  induction entries generalizing o with
  | nil => exact h
  | cons entry rest ih =>
    rw [List.forall_mem_cons] at hentries
    apply ih hentries.2
    unfold Executable.mergeStep
    split
    next => exact h
    next => exact h.merge entry.1 hentries.1

/-- Also a merge that fails halfway keeps the flags fitting together. -/
theorem Coherent.mergeInto (h : r.Coherent) {e : Executable} (he : e.Coherent) :
    (e.mergeInto r).state.Coherent := by
  refine foldl_mergeStep (fun entry hentry => ?_) h
  exact (he entry.1 entry.2 (Std.ExtTreeMap.mem_toList_iff_getElem?_eq_some.1 hentry)).1

theorem Coherent.analyze (h : r.Coherent) : r.analyze.Coherent := by
  intro k s' hs'
  rw [Registry.analyze, Std.ExtTreeMap.getElem?_map, Option.map_eq_some_iff] at hs'
  obtain ⟨s, hs, rfl⟩ := hs'
  cases hm : s.unified with
  | none =>
    rw [Symbol.analyze_of_none hm, hm]
    simp
  | some m =>
    rw [Symbol.analyze_of_unified hm]
    rintro u ⟨⟩
    exact ((h k s hs m hm).markLines s.base s.lines).fillPadding

theorem Coherent.count (h : r.Coherent) : r.count.state.Coherent := by
  unfold Registry.count
  split
  next =>
    intro k s' hs'
    rw [Std.ExtTreeMap.getElem?_map, Option.map_eq_some_iff] at hs'
    obtain ⟨s, hs, rfl⟩ := hs'
    exact h k s hs
  next => exact h

end Registry

/-! ## All states -/

namespace Pipeline

structure State where
  registry : Registry := {}
  executables : List Executable := []

inductive Step where
  | want (name : String)
  /-- Reads a listing into an executable that had none. -/
  | read (t : Target) (id : Nat) (file : String) (library : Option String) (loadAddress : Address)
    (listing : TextStream)
  | adopt (symbol : ResolvedSymbol) (source : Nat)
  | replay (executable : Nat) (format : TraceFormat) (trace : TextStream)
  | merge (executable : Nat)
  | analyze
  | count

namespace State

/-- The state after a step. One that fails leaves what it did before. -/
def apply (w : State) : Step → State
  | .want name => { w with registry := w.registry.insert name }
  | .read t id file library loadAddress listing =>
    let read := Listing.read t w.registry.contains { id, file, library, loadAddress } listing
    { w with executables := w.executables ++ [read.state] }
  | .adopt symbol source => { w with registry := (symbol.adoptInto w.registry source).state }
  | .replay i format trace =>
    { w with executables := w.executables.modify i fun e => (e.replay format trace).state }
  | .merge i =>
    { w with
      registry := (w.executables[i]?.map fun e => (e.mergeInto w.registry).state).getD w.registry }
  | .analyze => { w with registry := w.registry.analyze }
  | .count => { w with registry := w.registry.count.state }

def after (steps : List Step) : State := steps.foldl apply {}

structure Coherent (w : State) : Prop where
  registry : w.registry.Coherent
  executables : ∀ e ∈ w.executables, e.Coherent

theorem Coherent.apply {w : State} (h : w.Coherent) (step : Step) : (w.apply step).Coherent := by
  cases step with
  | want name => exact ⟨h.registry.insert name, h.executables⟩
  | read t id file library loadAddress listing =>
    refine ⟨h.registry, fun e he => ?_⟩
    rcases List.mem_append.1 he with he | he
    · exact h.executables e he
    · rw [List.mem_singleton.1 he]
      exact Listing.coherent_read t _ ⟨rfl, rfl, rfl⟩ listing
  | adopt symbol source => exact ⟨h.registry.adoptInto symbol source, h.executables⟩
  | replay i format trace =>
    refine ⟨h.registry, fun e' he' => ?_⟩
    obtain ⟨j, hj⟩ := List.getElem?_of_mem he'
    rw [State.apply, List.getElem?_modify] at hj
    obtain ⟨e, he, rfl⟩ := Option.map_eq_some_iff.1 hj
    have hcoherent := h.executables e (List.mem_of_getElem? he)
    split
    next => exact hcoherent.replay format trace
    next => exact hcoherent
  | merge i =>
    refine ⟨?_, h.executables⟩
    simp only [State.apply]
    cases he : w.executables[i]? with
    | none => exact h.registry
    | some e => exact h.registry.mergeInto (h.executables e (List.mem_of_getElem? he))
  | analyze => exact ⟨h.registry.analyze, h.executables⟩
  | count => exact ⟨h.registry.count, h.executables⟩

theorem coherent_foldl {w : State} (h : w.Coherent) (steps : List Step) :
    (steps.foldl apply w).Coherent := by
  induction steps generalizing w with
  | nil => exact h
  | cons step rest ih => exact ih (h.apply step)

/-- In every state the flags of each byte fit together, and in a map of an executable what ran runs
on to the next start. -/
theorem flags_after (steps : List Step) :
    (∀ e ∈ (after steps).executables, ∀ (name : String) m, e.maps[name]? = some m →
      ∀ i < m.size, (m.byte i).Coherent ∧
        (i + 1 < m.size → (m.byte i).isExecuted = true → (m.byte (i + 1)).isStart = false →
          (m.byte (i + 1)).isExecuted = true)) ∧
    ∀ k s u, (after steps).registry.find? k = some s → s.unified = some u →
      ∀ i < u.size, (u.byte i).Coherent := by
  have hblank : Coherent {} := ⟨fun k s hs => by simp at hs, by simp⟩
  have h : (after steps).Coherent := coherent_foldl hblank steps
  refine ⟨fun e he name m hm i _ => ?_, fun k s u hs hu i _ => ?_⟩
  · obtain ⟨hcoherent, hfinishes⟩ := h.executables e he name m hm
    exact ⟨hcoherent i, fun hi => hfinishes.next hi⟩
  · exact h.registry k s hs u hu i

end State

end Pipeline

end TraceCoverage

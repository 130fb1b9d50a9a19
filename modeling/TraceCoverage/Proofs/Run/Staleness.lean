import TraceCoverage.Proofs.Run.Operations

/-!
# Counts of old ranges

Counting needs ranges, and a registry remembers that they were computed until a map is merged. Other
operations change what the ranges were computed from as well: the first lines that a symbol gets, a
unified map that is made, and flags that are set in a map that was handed out. It is said here when
counts are had of ranges that are out of date.
-/

namespace TraceCoverage

open CoverageMap

/-- What an analysis reads of a symbol. -/
def Symbol.subject (s : Symbol) : Address × List CodeLine × Option CoverageMap :=
  (s.base, s.lines, s.unified)

namespace Registry

def subject (r : Registry) (k : String) : Address × List CodeLine × Option CoverageMap :=
  ((r.find? k).getD { name := k }).subject

def Differs (r r' : Registry) : Prop := ∃ k, r'.subject k ≠ r.subject k

namespace Operation

def Touches (r : Registry) (operation : Operation) : Prop := r.Differs (operation.apply r)

def Merges (r : Registry) : Operation → Prop
  | merge name _ => r.HasMap name
  | _ => False

/-- The operation gives a symbol its first lines, makes its unified map, or sets flags in it that
were not set. -/
def Slips (r : Registry) : Operation → Prop
  | adopt name base lines _ =>
    ∃ s ∈ r.find? name, s.isResolved = false ∧ (base ≠ s.base ∨ lines ≠ s.lines)
  | mark name size marks =>
    ∃ s ∈ r.find? name,
      s.unified = none ∧ size ≠ 0 ∨ ∃ u ∈ s.unified, marks.foldl Mark.apply u ≠ u
  | _ => False

end Operation

/-- One of the operations is as said when its turn comes. -/
def Happens (P : Registry → Operation → Prop) (r : Registry) : List Operation → Prop
  | [] => False
  | operation :: rest => P r operation ∨ Happens P (operation.apply r) rest

/-- The counts are of ranges that are up to date: they are had only if nothing that the last
analysis read was touched since, and else the registry says that it is not analyzed. -/
structure CountsAreCurrent (operations : List Operation) : Prop where
  current : ∀ totals, (perform {} operations).count.result = .ok totals →
    ∃ before since, operations = before ++ .analyze :: since ∧ .analyze ∉ since ∧
      ¬ Happens Operation.Touches (perform {} before).analyze since
  refused : ∀ cause, (perform {} operations).count.result = .error cause → cause = .notAnalyzed

variable {r r' : Registry} {operation : Operation} {before since operations : List Operation}

/-! ## Whether the ranges are taken for current -/

theorem count_eq_ok_iff {totals : Totals} :
    r.count.result = .ok totals ↔ r.analyzed = true ∧ totals = r.count.state.totals := by
  unfold count
  cases r.analyzed <;> simp [eq_comm]

theorem count_eq_error_iff {cause : CoverageError} :
    r.count.result = .error cause ↔ r.analyzed = false ∧ cause = .notAnalyzed := by
  unfold count
  cases r.analyzed <;> simp [eq_comm]

theorem analyzed_apply_iff (r : Registry) (operation : Operation) :
    (operation.apply r).analyzed = true ↔
      operation = .analyze ∨ r.analyzed = true ∧ ¬ operation.Merges r := by
  cases operation with
  | analyze => simp [Operation.apply, analyze]
  | merge name m => simp [Operation.apply, Operation.Merges, analyzed_merge_iff]
  | insert name => simp [Operation.apply, Operation.Merges, insert]
  | load stream => simp [Operation.apply, Operation.Merges, load, analyzed_foldl_insert]
  | adopt name base lines source => simp [Operation.apply, Operation.Merges, analyzed_adopt]
  | mark name size marks => simp [Operation.apply, Operation.Merges, analyzed_markUnified]
  | count => simp [Operation.apply, Operation.Merges, analyzed_count]

theorem analyzed_perform_iff (hsince : .analyze ∉ since) (r : Registry) :
    (r.perform since).analyzed = true ↔
      r.analyzed = true ∧ ¬ Happens Operation.Merges r since := by
  unfold perform
  induction since generalizing r with
  | nil => simp [Happens]
  | cons operation rest ih =>
    rw [List.mem_cons, not_or] at hsince
    obtain ⟨hne, hrest⟩ := hsince
    rw [List.foldl_cons, ih hrest, analyzed_apply_iff, Happens, not_or]
    simp [Ne.symm hne, and_assoc]

theorem perform_append (r : Registry) (before since : List Operation) :
    r.perform (before ++ since) = (r.perform before).perform since :=
  List.foldl_append

theorem perform_analyze (r : Registry) (before since : List Operation) :
    r.perform (before ++ .analyze :: since) = (r.perform before).analyze.perform since :=
  perform_append r before _

theorem exists_last_analysis (operations : List Operation) :
    .analyze ∉ operations ∨
      ∃ before since, operations = before ++ .analyze :: since ∧ .analyze ∉ since := by
  by_cases h : Operation.analyze ∈ operations
  · obtain ⟨since, before, heq, hno⟩ := List.eq_append_cons_of_mem (List.mem_reverse.2 h)
    refine .inr ⟨before.reverse, since.reverse, ?_, by rwa [List.mem_reverse]⟩
    rw [← List.reverse_reverse operations, heq, List.reverse_append, List.reverse_cons,
      List.append_assoc, List.singleton_append]
  · exact .inl h

/-! ## What is touched -/

theorem not_differs (h : ∀ k, r'.subject k = r.subject k) : ¬ r.Differs r' := by
  rintro ⟨k, hk⟩
  exact hk (h k)

theorem differs_iff_of_map {name : String} {f : Symbol → Symbol}
    (h : ∀ k, r'.find? k = (r.find? k).map fun s => if name = k then f s else s) :
    r.Differs r' ↔ ∃ s ∈ r.find? name, (f s).subject ≠ s.subject := by
  constructor
  · rintro ⟨k, hk⟩
    rw [subject, subject, h] at hk
    cases hs : r.find? k with
    | none => exact absurd (by rw [hs, Option.map_none]) hk
    | some s =>
      rw [hs, Option.map_some, Option.getD_some, Option.getD_some] at hk
      split at hk
      next hname => exact ⟨s, hname ▸ hs, hk⟩
      next => exact absurd rfl hk
  · rintro ⟨s, hs, hne⟩
    refine ⟨name, ?_⟩
    rw [subject, subject, h, Option.mem_def.1 hs, Option.map_some, if_pos rfl]
    exact hne

theorem subject_foldl_insert (r : Registry) (names : List String) (k : String) :
    (names.foldl insert r).subject k = r.subject k := by
  have hfound : (names.foldl insert r).find? k = _ := Pipeline.getElem?_foldl_insert names r k
  rw [subject, subject, hfound]
  cases hs : r.symbols[k]? with
  | some s => rw [find?, hs, Option.some_or]
  | none =>
    rw [find?, hs, Option.none_or]
    split <;> rfl

theorem subject_count (r : Registry) (k : String) : r.count.state.subject k = r.subject k := by
  unfold count
  split
  next =>
    rw [subject, subject, find?, find?]
    dsimp only
    rw [Std.ExtTreeMap.getElem?_map]
    cases r.symbols[k]? <;> rfl
  next => rfl

theorem subject_taking_ne_iff {s : Symbol} {base : Address} {lines : List CodeLine}
    {source : Nat} : (s.taking base lines source).subject ≠ s.subject ↔
      s.isResolved = false ∧ (base ≠ s.base ∨ lines ≠ s.lines) := by
  unfold Symbol.taking
  cases s.isResolved with
  | true => simp
  | false => simp [Symbol.subject, imp_iff_not_or]

theorem subject_marking_ne_iff {s : Symbol} {size : UInt32} {marks : List Mark} :
    (s.marking size marks).subject ≠ s.subject ↔
      s.unified = none ∧ size ≠ 0 ∨ ∃ u ∈ s.unified, marks.foldl Mark.apply u ≠ u := by
  have hsubject : (s.marking size marks).subject ≠ s.subject ↔
      (s.marking size marks).unified ≠ s.unified := by
    simp [Symbol.subject, Symbol.marking]
  rw [hsubject, Symbol.marking, Symbol.making]
  cases hu : s.unified with
  | some u => simp
  | none =>
    by_cases hsize : size = 0
    · simp [hsize, ofSize, Except.toOption]
    · obtain ⟨blank, hblank⟩ := ofSize_ok hsize
      simp [hsize, hblank, Except.toOption]

theorem touches_iff_slips (hmerges : ¬ operation.Merges r) (hanalyze : operation ≠ .analyze) :
    operation.Touches r ↔ operation.Slips r := by
  cases operation with
  | insert name => exact iff_of_false (not_differs (subject_foldl_insert r [name])) id
  | load stream => exact iff_of_false (not_differs (subject_foldl_insert r _)) id
  | adopt name base lines source =>
    refine (differs_iff_of_map (find?_adopt r name base lines source)).trans ?_
    simp only [subject_taking_ne_iff, Operation.Slips]
  | mark name size marks =>
    refine (differs_iff_of_map (find?_markUnified r name size marks)).trans ?_
    simp only [subject_marking_ne_iff, Operation.Slips]
  | merge name m =>
    have hkept : (r.merge name m).state = r := by
      cases hresult : (r.merge name m).result with
      | ok => exact absurd (hasMap_of_merge_ok hresult) hmerges
      | error cause => exact merge_of_error hresult
    exact iff_of_false (not_differs fun k => by rw [Operation.apply, hkept]) id
  | analyze => exact absurd rfl hanalyze
  | count => exact iff_of_false (not_differs (subject_count r)) id

theorem happens_touches_iff (hsince : .analyze ∉ since)
    (hmerges : ¬ Happens Operation.Merges r since) :
    Happens Operation.Touches r since ↔ Happens Operation.Slips r since := by
  induction since generalizing r with
  | nil => rfl
  | cons operation rest ih =>
    rw [List.mem_cons, not_or] at hsince
    rw [Happens, not_or] at hmerges
    rw [Happens, Happens, touches_iff_slips hmerges.1 (Ne.symm hsince.1), ih hsince.2 hmerges.2]

/-! ## Counts after any operations -/

theorem last_analysis_unique {before' since' : List Operation}
    (h : before ++ .analyze :: since = before' ++ .analyze :: since') (hsince : .analyze ∉ since)
    (hsince' : .analyze ∉ since') : before = before' ∧ since = since' := by
  rcases List.append_eq_append_iff.1 h with ⟨between, hbefore, hrest⟩ | ⟨between, hbefore, hrest⟩
  all_goals
    rw [List.cons_eq_append_iff] at hrest
    rcases hrest with ⟨rfl, hrest⟩ | ⟨more, _, hrest⟩
  · exact ⟨by simpa using hbefore.symm, (List.cons.inj hrest).2.symm⟩
  · exact absurd (hrest ▸ List.mem_append_right more List.mem_cons_self) hsince
  · exact ⟨by simpa using hbefore, (List.cons.inj hrest).2⟩
  · exact absurd (hrest ▸ List.mem_append_right more List.mem_cons_self) hsince'

theorem exists_count_ok_iff :
    (∃ totals, r.count.result = .ok totals) ↔ r.analyzed = true := by
  simp [count_eq_ok_iff]

theorem refuses_of_error {cause : CoverageError} (h : r.count.result = .error cause) :
    cause = .notAnalyzed :=
  (count_eq_error_iff.1 h).2

theorem no_counts_of_never (hnever : .analyze ∉ operations) :
    ¬ ∃ totals, (perform {} operations).count.result = .ok totals := by
  rw [exists_count_ok_iff, analyzed_perform_iff hnever]
  simp

section

variable (h : operations = before ++ .analyze :: since) (hsince : .analyze ∉ since)
include h hsince

theorem exists_count_ok_iff_of_last :
    (∃ totals, (perform {} operations).count.result = .ok totals) ↔
      ¬ Happens Operation.Merges (perform {} before).analyze since := by
  rw [exists_count_ok_iff, h, perform_analyze, analyzed_perform_iff hsince]
  exact and_iff_right rfl

theorem countsAreCurrent_iff_of_last :
    CountsAreCurrent operations ↔
      (Happens Operation.Slips (perform {} before).analyze since →
        Happens Operation.Merges (perform {} before).analyze since) := by
  have hok := exists_count_ok_iff_of_last h hsince
  constructor
  · intro hcurrent hslips
    by_contra hmerges
    obtain ⟨totals, htotals⟩ := hok.2 hmerges
    obtain ⟨before', since', h', hsince', htouches⟩ := hcurrent.current totals htotals
    obtain ⟨rfl, rfl⟩ := last_analysis_unique (h.symm.trans h') hsince hsince'
    exact htouches ((happens_touches_iff hsince hmerges).2 hslips)
  · intro hslips
    refine ⟨fun totals htotals => ⟨before, since, h, hsince, fun htouches => ?_⟩,
      fun cause => refuses_of_error⟩
    have hmerges := hok.1 ⟨totals, htotals⟩
    exact hmerges (hslips ((happens_touches_iff hsince hmerges).1 htouches))

end

/-- Counts are had exactly if there was an analysis and no map was merged since. They are current
unless something that the analysis had read slipped since. -/
theorem countsAreCurrent_iff (operations : List Operation) :
    ((∃ totals, (perform {} operations).count.result = .ok totals) ↔
      ∃ before since, operations = before ++ .analyze :: since ∧ .analyze ∉ since ∧
        ¬ Happens Operation.Merges (perform {} before).analyze since) ∧
    (CountsAreCurrent operations ↔
      ∀ before since, operations = before ++ .analyze :: since → .analyze ∉ since →
        Happens Operation.Slips (perform {} before).analyze since →
          Happens Operation.Merges (perform {} before).analyze since) := by
  rcases exists_last_analysis operations with hnever | ⟨before, since, h, hsince⟩
  · have hnone := no_counts_of_never hnever
    have hsplit : ∀ before since, operations ≠ before ++ .analyze :: since := by
      rintro before since rfl
      exact hnever (List.mem_append_right before List.mem_cons_self)
    refine ⟨iff_of_false hnone ?_, iff_of_true ?_ ?_⟩
    · exact fun ⟨before, since, h, _⟩ => hsplit before since h
    · exact ⟨fun totals h => absurd ⟨totals, h⟩ hnone, fun cause => refuses_of_error⟩
    · exact fun before since h => absurd h (hsplit before since)
  · have hlast : ∀ before' since', operations = before' ++ .analyze :: since' →
        .analyze ∉ since' → before = before' ∧ since = since' :=
      fun before' since' h' hsince' => last_analysis_unique (h.symm.trans h') hsince hsince'
    rw [exists_count_ok_iff_of_last h hsince, countsAreCurrent_iff_of_last h hsince]
    refine ⟨⟨fun hmerges => ⟨before, since, h, hsince, hmerges⟩, ?_⟩, ?_,
      fun hslips => hslips before since h hsince⟩
    · rintro ⟨before', since', h', hsince', hmerges⟩
      obtain ⟨rfl, rfl⟩ := hlast before' since' h' hsince'
      exact hmerges
    · intro hslips before' since' h' hsince'
      obtain ⟨rfl, rfl⟩ := hlast before' since' h' hsince'
      exact hslips

def mappedLate : List Operation := [.insert "f", .analyze, .mark "f" 8 []]

/-- A symbol that was never analyzed is counted as executed in full. -/
theorem counted_without_analysis :
    ¬ CountsAreCurrent mappedLate ∧
      ∃ totals, (perform {} mappedLate).count.result = .ok totals ∧
        totals.stats.sizeInBytes = 8 ∧ totals.stats.percentExecutedBytes = 100 := by
  have hblank : (perform {} [.insert "f"]).analyze.find? "f" = some { name := "f" } := by
    decide +kernel
  have hslips : Operation.Slips (perform {} [.insert "f"]).analyze (.mark "f" 8 []) :=
    ⟨_, hblank, .inl ⟨rfl, by decide⟩⟩
  have hcounted : (perform {} mappedLate).count.result.toOption.any (fun totals =>
      totals.stats.sizeInBytes = 8 ∧ totals.stats.percentExecutedBytes = 100) = true := by
    decide +kernel
  have hsplit : mappedLate = [.insert "f"] ++ .analyze :: [.mark "f" 8 []] := rfl
  refine ⟨?_, ?_⟩
  · rw [countsAreCurrent_iff_of_last hsplit (by simp)]
    intro h
    simpa [Happens, Operation.Merges] using h (.inl hslips)
  · obtain ⟨totals, htotals, hshown⟩ := (Option.any_eq_true _ _).1 hcounted
    refine ⟨totals, ?_, of_decide_eq_true hshown⟩
    cases hresult : (perform {} mappedLate).count.result with
    | error cause => simp [hresult, Except.toOption] at htotals
    | ok totals' => simpa [hresult, Except.toOption] using htotals

end Registry

end TraceCoverage

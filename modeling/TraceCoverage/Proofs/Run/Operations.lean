import TraceCoverage.Proofs.Run.History

/-!
# Operations on a registry, symbol by symbol

Each operation changes the symbol of one name, or every symbol in one way, and only merging and
analyzing change whether the ranges are up to date. An operation that fails changes nothing.
-/

namespace TraceCoverage

open CoverageMap

namespace Symbol

/-- The symbol after lines were handed to it. The first ones count. -/
def taking (base : Address) (lines : List CodeLine) (source : Nat) (s : Symbol) : Symbol :=
  if s.isResolved then s else { s with base, lines, source := some source }

def making (size : UInt32) (s : Symbol) : Symbol :=
  { s with unified := s.unified.or (ofSize size).toOption }

def marking (size : UInt32) (marks : List Mark) (s : Symbol) : Symbol :=
  { s with unified := (s.making size).unified.map (marks.foldl Mark.apply) }

theorem making_of_unified {s : Symbol} (h : s.unified.isSome = true) (size : UInt32) :
    s.making size = s := by
  obtain ⟨u, hu⟩ := Option.isSome_iff_exists.1 h
  rw [making, hu, Option.some_or, ← hu]

end Symbol

namespace Registry

variable {r r' : Registry} {name : String} {s : Symbol} {cause : CoverageError}

theorem ext_find? (h : ∀ k, r.find? k = r'.find? k) (hanalyzed : r.analyzed = r'.analyzed) :
    r = r' := by
  obtain ⟨symbols, analyzed⟩ := r
  obtain ⟨symbols', analyzed'⟩ := r'
  obtain rfl : analyzed = analyzed' := hanalyzed
  obtain rfl : symbols = symbols' := Std.ExtTreeMap.ext_getElem? fun k => h k
  rfl

/-! ## Symbols -/

theorem find?_put (f : Symbol → Symbol) (hs : r.find? name = some s) (analyzed : Bool)
    (k : String) : find? { symbols := r.symbols.insert name (f s), analyzed } k =
      (r.find? k).map fun s => if name = k then f s else s := by
  have hmodify : r.symbols.insert name (f s) = r.symbols.modify name f :=
    TreeMap.insert_eq_modify hs
  rw [find?, hmodify, TreeMap.getElem?_modify_eq, find?]

theorem map_of_find?_eq_none (f : Symbol → Symbol) (hs : r.find? name = none) (k : String) :
    (r.find? k).map (fun s => if name = k then f s else s) = r.find? k := by
  by_cases hname : name = k
  · rw [← hname, hs, Option.map_none]
  · simp [hname]

theorem map_of_find?_eq_some {f : Symbol → Symbol} (hs : r.find? name = some s) (hf : f s = s)
    (k : String) : (r.find? k).map (fun s => if name = k then f s else s) = r.find? k := by
  by_cases hname : name = k
  · rw [← hname, hs, Option.map_some, if_pos rfl, hf]
  · simp [hname]

theorem find?_insert (r : Registry) (name k : String) :
    (r.insert name).find? k = (r.find? k).or (if name = k then some { name := k } else none) :=
  Pipeline.getElem?_insert r name k

theorem find?_adopt (r : Registry) (name : String) (base : Address) (lines : List CodeLine)
    (source : Nat) (k : String) :
    (r.adopt name base lines source).state.find? k =
      (r.find? k).map fun s => if name = k then s.taking base lines source else s := by
  unfold adopt
  cases hs : r.symbols[name]? with
  | none => rw [map_of_find?_eq_none _ hs]
  | some s =>
    cases hres : s.isResolved with
    | true =>
      have hkept : s.taking base lines source = s := by rw [Symbol.taking, if_pos hres]
      simp only [hres, if_true, map_of_find?_eq_some hs hkept]
    | false =>
      have htaken : s.taking base lines source = { s with base, lines, source := some source } := by
        rw [Symbol.taking, hres, if_neg Bool.false_ne_true]
      simp only [hres, Bool.false_eq_true, if_false]
      rw [← htaken, find?_put (Symbol.taking base lines source) hs]

theorem find?_unifiedMap (r : Registry) (name : String) (size : UInt32) (k : String) :
    (r.unifiedMap name size).state.find? k =
      (r.find? k).map fun s => if name = k then s.making size else s := by
  unfold unifiedMap
  cases hs : r.symbols[name]? with
  | none => rw [map_of_find?_eq_none _ hs]
  | some s =>
    cases hu : s.unified with
    | some u =>
      have hkept : s.making size = s :=
        Symbol.making_of_unified (by rw [hu, Option.isSome_some]) size
      simp only [hu, map_of_find?_eq_some hs hkept]
    | none =>
      have hmade : s.making size = { s with unified := (ofSize size).toOption } := by
        rw [Symbol.making, hu, Option.none_or]
      cases hblank : ofSize size with
      | error cause =>
        have hkept : s.making size = s := by
          rw [hmade, hblank, Except.toOption, ← hu]
        simp only [hu, map_of_find?_eq_some hs hkept]
      | ok blank =>
        rw [hblank, Except.toOption] at hmade
        simp only [hu]
        rw [← hmade, find?_put (Symbol.making size) hs]

theorem unifiedMap_eq_ok_iff {size : UInt32} {m : CoverageMap} :
    (r.unifiedMap name size).result = .ok m ↔
      ∃ s, r.find? name = some s ∧ (s.making size).unified = some m := by
  unfold unifiedMap find?
  cases hs : r.symbols[name]? with
  | none => simp
  | some s =>
    cases hu : s.unified with
    | some u => simp [Symbol.making, hu]
    | none => cases hblank : ofSize size <;> simp [Symbol.making, hu, hblank, Except.toOption]

theorem find?_markUnified (r : Registry) (name : String) (size : UInt32) (marks : List Mark)
    (k : String) :
    (r.markUnified name size marks).find? k =
      (r.find? k).map fun s => if name = k then s.marking size marks else s := by
  have hmade : ∀ s, r.find? k = some s → name = k → ∀ m,
      ((r.unifiedMap name size).result = .ok m ↔ (s.making size).unified = some m) := by
    rintro s hs rfl m
    rw [unifiedMap_eq_ok_iff, hs]
    simp
  unfold markUnified
  dsimp only
  cases hresult : (r.unifiedMap name size).result with
  | error cause =>
    rw [find?_unifiedMap]
    refine Option.map_congr fun s hs => ?_
    split
    next hname =>
      -- If no map can be made, there is none to mark.
      have hnone : (s.making size).unified = none := by
        rw [Option.eq_none_iff_forall_ne_some]
        intro m hm
        rw [← hmade s hs hname, hresult] at hm
        cases hm
      rw [Symbol.marking, hnone, Option.map_none, ← hnone, Symbol.making]
    next => rfl
  | ok m =>
    have hfound := find?_unifiedMap r name size k
    unfold find? at hfound
    dsimp only [update, find?]
    rw [TreeMap.getElem?_modify_eq, hfound, Option.map_map]
    refine Option.map_congr fun s hs => ?_
    rw [Function.comp_apply]
    split
    next hname =>
      have hm : (s.making size).unified = some m := (hmade s hs hname m).1 hresult
      rw [Symbol.marking, hm]
      rfl
    next => rfl

/-! ## Whether the ranges are up to date -/

theorem analyzed_adopt (r : Registry) (name : String) (base : Address) (lines : List CodeLine)
    (source : Nat) : (r.adopt name base lines source).state.analyzed = r.analyzed := by
  unfold adopt
  split
  next => rfl
  next => split <;> rfl

theorem analyzed_unifiedMap (r : Registry) (name : String) (size : UInt32) :
    (r.unifiedMap name size).state.analyzed = r.analyzed := by
  unfold unifiedMap
  split
  next => rfl
  next =>
    split
    next => rfl
    next => split <;> rfl

theorem analyzed_markUnified (r : Registry) (name : String) (size : UInt32) (marks : List Mark) :
    (r.markUnified name size marks).analyzed = r.analyzed := by
  rw [← analyzed_unifiedMap r name size, markUnified]
  split <;> rfl

theorem analyzed_foldl_insert (r : Registry) (names : List String) :
    (names.foldl insert r).analyzed = r.analyzed := by
  induction names generalizing r with
  | nil => rfl
  | cons name rest ih => exact ih (r.insert name)

/-- Only merging into a map that is there puts the ranges out of date. -/
theorem analyzed_merge_iff (r : Registry) (name : String) (m : CoverageMap) :
    (r.merge name m).state.analyzed = true ↔ r.analyzed = true ∧ ¬ r.HasMap name := by
  unfold merge HasMap
  cases hs : r.symbols[name]? with
  | none => simp
  | some s => cases hu : s.unified <;> simp [hu]

theorem analyzed_count (r : Registry) : r.count.state.analyzed = r.analyzed := by
  unfold count
  split <;> rfl

/-! ## Failures -/

theorem adopt_of_error {base : Address} {lines : List CodeLine} {source : Nat}
    (h : (r.adopt name base lines source).result = .error cause) :
    (r.adopt name base lines source).state = r := by
  unfold adopt at h ⊢
  split at h
  next => rfl
  next => split at h <;> cases h

theorem adopt_eq_error_iff {base : Address} {lines : List CodeLine} {source : Nat} :
    (r.adopt name base lines source).result = .error cause ↔
      r.find? name = none ∧ cause = .unknownSymbol name := by
  unfold adopt find?
  cases hs : r.symbols[name]? with
  | none => simp [eq_comm]
  | some s => cases hres : s.isResolved <;> simp [hres]

theorem unifiedMap_of_error {size : UInt32}
    (h : (r.unifiedMap name size).result = .error cause) :
    (r.unifiedMap name size).state = r := by
  unfold unifiedMap at h ⊢
  split at h
  next => rfl
  next =>
    split at h
    next => cases h
    next =>
      split at h
      next => rfl
      next => cases h

theorem adoptInto_of_error {p : ResolvedSymbol} {source : Nat}
    (h : (p.adoptInto r source).result = .error cause) : (p.adoptInto r source).state = r := by
  unfold ResolvedSymbol.adoptInto at h ⊢
  dsimp only at h ⊢
  cases hmade : (r.unifiedMap p.name p.size).result with
  | error cause' => exact unifiedMap_of_error hmade
  | ok m =>
    simp only [hmade] at h
    obtain ⟨s, hs, _⟩ := unifiedMap_eq_ok_iff.1 hmade
    have hnone := (adopt_eq_error_iff.1 h).1
    rw [find?_unifiedMap, hs] at hnone
    cases hnone

theorem merge_of_error {m : CoverageMap} (h : (r.merge name m).result = .error cause) :
    (r.merge name m).state = r := by
  unfold merge at h ⊢
  split at h
  next => rfl
  next =>
    split at h
    next => rfl
    next => cases h

theorem count_of_error (h : r.count.result = .error cause) : r.count.state = r := by
  unfold count at h ⊢
  cases hanalyzed : r.analyzed with
  | true => simp [hanalyzed] at h
  | false => rfl

end Registry

end TraceCoverage

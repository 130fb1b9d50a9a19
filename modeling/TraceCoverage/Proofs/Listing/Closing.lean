import TraceCoverage.Proofs.Listing.Segments

/-!
# Closing a symbol

Whatever was read before, closing a symbol does not fail. It leaves the reader as it is, or adds the
symbol and its map, and so do all steps of a reader: what was resolved once, stays.
-/

namespace TraceCoverage.Listing

def OpenSymbol.closedAt (o : OpenSymbol) (last : Address) : Segment where
  label := o.name
  start := o.start
  body := o.lines.reverse
  last := last

namespace Reader

variable {t : Target} {wanted : String → Bool} {e : Executable} {r r' r'' : Reader}
  {o : OpenSymbol} {last : Address} {s : ResolvedSymbol}

/-! ## One symbol -/

theorem close_skips
    (h : (o.closedAt last).symbol? = none ∨ r.executable.maps.contains o.name = true) :
    ∃ closed, r.close o last = .ok closed ∧ closed.current = none ∧
      closed.executable = r.executable ∧ closed.resolved = r.resolved := by
  unfold close
  by_cases hcode : last < Padding.bytes o.lines.reverse ∨
      last - Padding.bytes o.lines.reverse < o.start
  · exact ⟨_, if_pos hcode, rfl, rfl, rfl⟩
  · have hsome : (o.closedAt last).symbol? ≠ none := by
      rw [Segment.symbol?, OpenSymbol.closedAt, if_neg hcode]
      simp
    exact ⟨_, (if_neg hcode).trans (if_pos (h.resolve_left hsome)), rfl, rfl, rfl⟩

theorem close_resolves (h : (o.closedAt last).symbol? = some s)
    (hnew : r.executable.maps.contains o.name = false) :
    ∃ closed m, r.close o last = .ok closed ∧ closed.current = none ∧
      closed.resolved = r.resolved.push s ∧
      closed.executable.loadAddress = r.executable.loadAddress ∧ s.Draws m ∧
      ∀ name, closed.executable.maps[name]? =
        if o.name = name then some m else r.executable.maps[name]? := by
  obtain ⟨hname, _, _, hlast, hle, _⟩ := Segment.of_symbol? h
  obtain ⟨e, m, hregister, hframe, hdraws, hmaps, _⟩ :=
    register_spec (e := r.executable) (s := s) (by rwa [hname]) hle
  rw [Segment.symbol?, OpenSymbol.closedAt, Option.ite_none_left_eq_some, Option.some.injEq] at h
  obtain ⟨hcode, hsymbol⟩ := h
  refine ⟨{ r with current := none, executable := e, resolved := r.resolved.push s }, m, ?_, rfl,
    rfl, by rw [hframe], hdraws, by rwa [hname] at hmaps⟩
  unfold close
  rw [hlast] at hregister
  simp only [OpenSymbol.closedAt] at hregister
  simp only [if_neg hcode, hnew, Bool.false_eq_true, if_false, hsymbol, hregister]

/-! ## Steps -/

structure Keeps (r r' : Reader) : Prop where
  loadAddress : r'.executable.loadAddress = r.executable.loadAddress
  maps : ∀ (name : String) (m : CoverageMap), r.executable.maps[name]? = some m →
    r'.executable.maps[name]? = some m
  resolved : r.resolved.toList <+: r'.resolved.toList

theorem keeps_of_eq (hexecutable : r'.executable = r.executable)
    (hresolved : r'.resolved = r.resolved) : r.Keeps r' :=
  ⟨by rw [hexecutable], by simp [hexecutable], hresolved ▸ List.prefix_rfl⟩

theorem Keeps.trans (h : r.Keeps r') (h' : r'.Keeps r'') : r.Keeps r'' :=
  ⟨h'.loadAddress.trans h.loadAddress, fun name m hm => h'.maps name m (h.maps name m hm),
    h.resolved.trans h'.resolved⟩

/-- Closing a symbol does not fail: one whose map is there already is not registered again. -/
theorem exists_close (r : Reader) (o : OpenSymbol) (last : Address) :
    ∃ closed, r.close o last = .ok closed ∧ closed.current = none ∧ r.Keeps closed := by
  cases hs : (o.closedAt last).symbol? with
  | none =>
    obtain ⟨closed, hclosed, hnone, hexecutable, hresolved⟩ := close_skips (r := r) (.inl hs)
    exact ⟨closed, hclosed, hnone, keeps_of_eq hexecutable hresolved⟩
  | some s =>
    cases hknown : r.executable.maps.contains o.name with
    | true =>
      have hskips : (o.closedAt last).symbol? = none ∨ r.executable.maps.contains o.name = true :=
        .inr hknown
      obtain ⟨closed, hclosed, hnone, hexecutable, hresolved⟩ := close_skips hskips
      exact ⟨closed, hclosed, hnone, keeps_of_eq hexecutable hresolved⟩
    | false =>
      obtain ⟨closed, m, hclosed, hnone, hresolved, hload, _, hmaps⟩ := close_resolves hs hknown
      refine ⟨closed, hclosed, hnone, hload, fun name m' hm' => ?_, by simp [hresolved]⟩
      have hne : o.name ≠ name := by
        rintro rfl
        rw [TreeMap.contains_of_getElem? hm'] at hknown
        cases hknown
      rw [hmaps, if_neg hne, hm']

theorem exists_closeCurrent (r : Reader) (last : Address) :
    ∃ closed, r.closeCurrent last = .ok closed ∧ closed.current = none ∧ r.Keeps closed := by
  unfold closeCurrent
  split
  next o _ => exact exists_close r o last
  next hnone => exact ⟨r, rfl, hnone, keeps_of_eq rfl rfl⟩

theorem step_header {line label : String} {offset : UInt32}
    (hline : LineKind.ofLine t line.toList = .header offset label) :
    ∃ opened, step t wanted r line = .ok opened ∧
      opened.current = if wanted label then
        some
          { name := label, start := r.executable.loadAddress + offset
            lines := [{ text := line }] }
      else none := by
  obtain ⟨closed, hclosed, hnone, _⟩ :=
    exists_closeCurrent r (r.executable.loadAddress + offset - 1)
  rw [step, hline]
  dsimp only
  rw [hclosed]
  dsimp only
  split
  next => exact ⟨_, rfl, rfl⟩
  next => exact ⟨closed, rfl, hnone⟩

theorem exists_step (t : Target) (wanted : String → Bool) (r : Reader) (line : String) :
    ∃ r', r.step t wanted line = .ok r' ∧ r.Keeps r' := by
  unfold step
  cases LineKind.ofLine t line.toList with
  | header offset label =>
    obtain ⟨closed, hclosed, _, hkeeps⟩ :=
      exists_closeCurrent r (r.executable.loadAddress + offset - 1)
    simp only [hclosed]
    split
    next => exact ⟨_, rfl, hkeeps.trans (keeps_of_eq rfl rfl)⟩
    next => exact ⟨closed, rfl, hkeeps⟩
  | sentinel offset =>
    obtain ⟨closed, hclosed, _, hkeeps⟩ :=
      exists_closeCurrent r (r.executable.loadAddress + offset - 1)
    exact ⟨closed, hclosed, hkeeps⟩
  | instruction | text => exact ⟨_, rfl, keeps_of_eq rfl rfl⟩

theorem exists_run (t : Target) (wanted : String → Bool) (r : Reader) (lines : List String) :
    ∃ r', r.run t wanted lines = .ok r' ∧ r.Keeps r' := by
  induction lines generalizing r with
  | nil => exact ⟨r, rfl, keeps_of_eq rfl rfl⟩
  | cons line rest ih =>
    obtain ⟨r₁, hstep, hkeeps⟩ := exists_step t wanted r line
    obtain ⟨r', hrun, hkeeps'⟩ := ih r₁
    refine ⟨r', ?_, hkeeps.trans hkeeps'⟩
    rw [run, List.foldlM_cons, hstep]
    exact hrun

theorem run_append {front : List String} (hrun : r.run t wanted front = .ok r')
    (rest : List String) : r.run t wanted (front ++ rest) = r'.run t wanted rest := by
  unfold run at hrun ⊢
  rw [List.foldlM_append, hrun]
  rfl

theorem exists_finish (r : Reader) : ∃ r', r.finish = .ok r' ∧ r.Keeps r' := by
  unfold finish
  split
  next o _ =>
    obtain ⟨closed, hclosed, _, hkeeps⟩ :=
      exists_close (r.warn (.openEnded o.name)) o (o.last.getD o.start)
    have hwarned : r.Keeps (r.warn (.openEnded o.name)) := keeps_of_eq rfl rfl
    exact ⟨closed, hclosed, hwarned.trans hkeeps⟩
  next => exact ⟨r, rfl, keeps_of_eq rfl rfl⟩

/-- What a part of a listing resolved is there when all of it was read, also if the rest of it
cannot be read to its end. -/
theorem read_keeps {front : List String} (hrun : run t wanted { executable := e } front = .ok r)
    (rest : List String) (failure : Option ReadFailure) :
    (∀ (name : String) (m : CoverageMap), r.executable.maps[name]? = some m →
      (read t wanted e { lines := front ++ rest, failure }).state.maps[name]? = some m) ∧
    (failure = none → ∃ found,
      (read t wanted e { lines := front ++ rest, failure }).result = .ok found ∧
        r.resolved.toList <+: found) := by
  obtain ⟨r', hrest, hkeeps⟩ := exists_run t wanted r rest
  obtain ⟨r'', hfinish, hkeeps'⟩ := exists_finish r'
  have hall := (run_append hrun rest).trans hrest
  unfold read
  simp only [hall]
  cases failure with
  | some cause => exact ⟨hkeeps.maps, fun h => by cases h⟩
  | none =>
    simp only [hfinish]
    exact ⟨(hkeeps.trans hkeeps').maps, fun _ => ⟨_, rfl, (hkeeps.trans hkeeps').resolved⟩⟩

theorem read_keeps_step {front : List String} {line : String}
    (hrun : run t wanted { executable := e } front = .ok r) (hstep : r.step t wanted line = .ok r')
    (after : List String) (failure : Option ReadFailure) :
    (∀ (name : String) (m : CoverageMap), r'.executable.maps[name]? = some m →
      (read t wanted e { lines := front ++ line :: after, failure }).state.maps[name]? = some m) ∧
    (failure = none → ∃ found,
      (read t wanted e { lines := front ++ line :: after, failure }).result = .ok found ∧
        r'.resolved.toList <+: found) := by
  have hread : run t wanted { executable := e } (front ++ [line]) = .ok r' := by
    rw [run_append hrun, run, List.foldlM_cons, hstep]
    rfl
  have hall : front ++ line :: after = front ++ [line] ++ after := by simp
  rw [hall]
  exact read_keeps hread after failure

end Reader

end TraceCoverage.Listing

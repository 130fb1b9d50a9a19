import TraceCoverage.Proofs.Listing.Closing
import TraceCoverage.Proofs.Listing.Ordered

/-!
# Where the lines of symbols come from

A reader holds lines of the listing: those of the symbols that it resolved, and behind them those of
the open one. No step makes a line up, doubles one or changes the order, and what is closed only
loses lines. So the symbols of a listing show some of its lines in their order, and their
instructions stand at some of the addresses that a pass over the whole listing finds.
-/

namespace TraceCoverage.Listing

variable {t : Target} {wanted : String → Bool} {line : String} {last : Address}

namespace Reader

variable {r r' closed : Reader} {o : OpenSymbol}

def held (r : Reader) : List CodeLine :=
  r.resolved.toList.flatMap (·.lines) ++ r.current.toList.flatMap (·.lines.reverse)

theorem held_of_closed (h : r.current = none) : r.held = r.resolved.toList.flatMap (·.lines) := by
  simp [held, h]

theorem held_of_open (h : r.current = some o) :
    r.held = r.resolved.toList.flatMap (·.lines) ++ o.lines.reverse := by
  simp [held, h]

/-! ## Steps -/

theorem held_close (h : r.close o last = .ok closed) :
    closed.held.Sublist (r.resolved.toList.flatMap (·.lines) ++ o.lines.reverse) := by
  by_cases hskips : (o.closedAt last).symbol? = none ∨ r.executable.maps.contains o.name = true
  · obtain ⟨closed', hclosed, hnone, _, hresolved⟩ := close_skips hskips
    cases h.symm.trans hclosed
    rw [held_of_closed hnone, hresolved]
    exact List.sublist_append_left _ _
  · rw [not_or, Bool.not_eq_true] at hskips
    obtain ⟨s, hs⟩ := Option.ne_none_iff_exists'.1 hskips.1
    obtain ⟨closed', m, hclosed, hnone, hresolved, _⟩ := close_resolves hs hskips.2
    cases h.symm.trans hclosed
    have hlines : s.lines.Sublist o.lines.reverse := by
      rw [Segment.lines_of_symbol? hs]
      exact Padding.trim_sublist _
    rw [held_of_closed hnone, hresolved, Array.toList_push, List.flatMap_append,
      List.flatMap_singleton]
    exact hlines.append_left _

theorem held_closeCurrent (h : r.closeCurrent last = .ok closed) :
    closed.held.Sublist r.held := by
  unfold closeCurrent at h
  split at h
  next o ho =>
    rw [held_of_open ho]
    exact held_close h
  next =>
    cases h
    exact List.Sublist.refl _

theorem held_push (r : Reader) (l : CodeLine) :
    (r.push l).held.Sublist (r.held ++ [l]) := by
  cases ho : r.current with
  | none =>
    have hpushed : (r.push l).current = none := by rw [push, ho]; rfl
    rw [held_of_closed hpushed, held_of_closed ho]
    exact List.sublist_append_left _ _
  | some o =>
    have hpushed : (r.push l).held = r.held ++ [l] := by
      simp [held, push, ho]
    rw [hpushed]

/-- A step takes its line or leaves it, and takes no other. -/
theorem held_step (h : r.step t wanted line = .ok r') :
    r'.held.Sublist (r.held ++ [bodyLine t r.executable.loadAddress line]) := by
  unfold step at h
  unfold bodyLine
  cases hk : LineKind.ofLine t line.toList with
  | header offset label =>
    obtain ⟨closed, hclosed, hnone, _⟩ :=
      exists_closeCurrent r (r.executable.loadAddress + offset - 1)
    have hheld := held_closeCurrent hclosed
    simp only [hk, hclosed] at h
    split at h
    next =>
      cases h
      rw [held_of_closed hnone] at hheld
      exact hheld.append_right _
    next =>
      cases h
      exact hheld.trans (List.sublist_append_left _ _)
  | sentinel offset =>
    simp only [hk] at h
    exact (held_closeCurrent h).trans (List.sublist_append_left _ _)
  | instruction offset =>
    simp only [hk] at h
    cases h
    exact held_push r _
  | text =>
    simp only [hk] at h
    cases h
    exact held_push r _

theorem held_finish (h : r.finish = .ok r') : r'.held.Sublist r.held := by
  unfold finish at h
  split at h
  next o ho =>
    rw [held_of_open ho]
    exact held_close (r := r.warn (.openEnded o.name)) h
  next =>
    cases h
    exact List.Sublist.refl _

/-! ## Runs -/

theorem held_run {lines : List String} (h : r.run t wanted lines = .ok r') :
    r'.held.Sublist (r.held ++ lines.map (bodyLine t r.executable.loadAddress)) := by
  induction lines generalizing r with
  | nil =>
    cases h
    exact List.sublist_append_left _ _
  | cons line rest ih =>
    obtain ⟨next, hstep, hkeeps⟩ := exists_step t wanted r line
    rw [run, List.foldlM_cons, hstep] at h
    have hrest := ih (r := next) h
    rw [hkeeps.loadAddress] at hrest
    rw [List.map_cons, ← List.singleton_append, ← List.append_assoc]
    exact hrest.trans ((held_step hstep).append_right _)

end Reader

theorem lines_read (t : Target) (wanted : String → Bool) (e : Executable) (lines : List String) :
    ∃ found, (read t wanted e { lines }).result = .ok found ∧
      (found.flatMap (·.lines)).Sublist (lines.map (bodyLine t e.loadAddress)) := by
  obtain ⟨r, hrun, _⟩ := Reader.exists_run t wanted { executable := e } lines
  obtain ⟨r', hfinish, _⟩ := Reader.exists_finish r
  refine ⟨r'.resolved.toList, ?_, ?_⟩
  · simp only [read, hrun, hfinish]
  · have hheld := (Reader.held_finish hfinish).trans (Reader.held_run hrun)
    exact (List.sublist_append_left _ _).trans hheld

/-! ## Texts and addresses -/

@[simp]
theorem text_bodyLine (t : Target) (bias : Address) (line : String) :
    (bodyLine t bias line).text = line := by
  unfold bodyLine
  split <;> rfl

theorem addresses_bodyLine (t : Target) (bias : Address) (lines : List String) :
    ((lines.map (bodyLine t bias)).filterMap (·.address)).Sublist
      (instructionAddresses t bias lines) := by
  induction lines with
  | nil => exact List.Sublist.refl _
  | cons line rest ih =>
    rw [List.map_cons]
    cases ha : (bodyLine t bias line).address with
    | none =>
      rw [List.filterMap_cons_none ha]
      exact ih.trans ((List.sublist_cons_self line rest).filterMap _)
    | some a =>
      have haddresses : instructionAddresses t bias (line :: rest) =
          a :: instructionAddresses t bias rest :=
        List.filterMap_cons_some (codeAt?_of_body ha)
      rw [List.filterMap_cons_some ha, haddresses]
      exact ih.cons_cons a

/-- The symbols of a listing show lines of it in their order, none of them twice. Their
instructions stand at addresses that a pass over the whole listing finds, in that order too. -/
theorem read_in_order (t : Target) (wanted : String → Bool) (e : Executable) (lines : List String) :
    ∃ found, (read t wanted e { lines }).result = .ok found ∧
      ((found.flatMap (·.lines)).map (·.text)).Sublist lines ∧
      ((found.flatMap (·.lines)).filterMap (·.address)).Sublist
        (instructionAddresses t e.loadAddress lines) := by
  obtain ⟨found, hresult, hlines⟩ := lines_read t wanted e lines
  refine ⟨found, hresult, ?_, (hlines.filterMap _).trans (addresses_bodyLine t _ lines)⟩
  have htexts : (lines.map (bodyLine t e.loadAddress)).map (·.text) = lines := by
    simp [Function.comp_def]
  have hshown := hlines.map (·.text)
  rwa [htexts] at hshown

end TraceCoverage.Listing

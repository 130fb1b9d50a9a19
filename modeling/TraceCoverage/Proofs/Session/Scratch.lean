import TraceCoverage.Proofs.Session.Tree
import TraceCoverage.Session.Run
import Mathlib.Data.Finset.Card
import Mathlib.Data.Finset.Dedup

/-!
# What handles leave behind

Over any steps of handles that share a register, a file that was registered at any time either is
gone or waits on the register. A cleanup takes away what waits there and nothing else, so it leaves
none of these files, and neither does the last handle.
-/

namespace TraceCoverage

namespace Scratch

open FileTree

/-! ## Removing what is registered -/

section

variable {t : FileTree} {path : String} {place : Place}

theorem removeStep_of_none (h : t.filePlace? path = none) (n : Nat) (ws : List Warning) :
    ∃ ws', removeStep (t, n, ws) path = (t, n, ws') := by
  obtain ⟨cause, hcause⟩ := remove_error h
  unfold removeStep
  simp only [hcause]
  split
  next hok => cases hok
  next => exact ⟨ws, rfl⟩
  next => exact ⟨_, rfl⟩

theorem removeStep_of_some (h : t.filePlace? path = some place) (n : Nat) (ws : List Warning) :
    ∃ t', removeStep (t, n, ws) path = (t', n + 1, ws) ∧ t.Sets t' place none := by
  obtain ⟨t', hremove, hsets⟩ := exists_remove h
  refine ⟨t', ?_, hsets⟩
  simp only [removeStep, hremove]

theorem foldl_removeStep (paths : List String) (t : FileTree) (n : Nat) (ws : List Warning) :
    ∃ t' ws', paths.foldl removeStep (t, n, ws) =
        (t', n + (paths.filterMap t.filePlace?).toFinset.card, ws') ∧ t.Clears t' paths := by
  induction paths generalizing t n ws with
  | nil => exact ⟨t, ws, by simp, rfl, by simp⟩
  | cons path rest ih =>
    cases hfile : t.filePlace? path with
    | none =>
      obtain ⟨ws₁, hstep⟩ := removeStep_of_none hfile n ws
      obtain ⟨t', ws', hrest, hclears⟩ := ih t n ws₁
      have hsame : (path :: rest).filterMap t.filePlace? = rest.filterMap t.filePlace? :=
        List.filterMap_cons_none hfile
      refine ⟨t', ws', ?_, hclears.working, fun other => ?_⟩
      · rw [List.foldl_cons, hstep, hrest, hsame]
      · rw [hsame, hclears.nodeAt?]
    | some place =>
      obtain ⟨t₁, hstep, hsets⟩ := removeStep_of_some hfile n ws
      obtain ⟨t', ws', hrest, hclears⟩ := ih t₁ (n + 1) ws
      -- A later path that names the same file finds nothing any more.
      have hleft := hsets.filterMap_filePlace? rest
      have hall : ((path :: rest).filterMap t.filePlace?).toFinset =
          insert place (rest.filterMap t₁.filePlace?).toFinset := by
        ext other
        by_cases heq : other = place <;> simp [hleft, List.filterMap_cons_some hfile, heq]
      refine ⟨t', ws', ?_, hclears.working.trans hsets.working, fun other => ?_⟩
      · have hnew : place ∉ (rest.filterMap t₁.filePlace?).toFinset := by simp [hleft]
        rw [List.foldl_cons, hstep, hrest, hall, Finset.card_insert_of_notMem hnew, Nat.add_assoc,
          Nat.add_comm 1]
      · rw [hclears.nodeAt?, hsets.nodeAt?, hleft, List.filterMap_cons_some hfile]
        by_cases heq : other = place <;> simp [heq]

end

/-! ## Steps -/

inductive Step where
  | register (path : String)
  /-- The environment picks the path. -/
  | create (path : String)
  | clone
  | drop
  | cleanup
deriving DecidableEq, Repr

def perform (s : Scratch) : Step → Scratch
  | .register path => s.register path
  | .create path =>
    match s.createAt path with
    | .ok made => made
    | .error _ => s
  | .clone => s.clone
  | .drop => s.drop
  | .cleanup => s.cleanup.2.2

def run (s : Scratch) (steps : List Step) : Scratch := steps.foldl perform s

def registers (s : Scratch) : Step → List String
  | .register path => [path]
  | .create path => if (s.createAt path).toBool then [path] else []
  | .clone | .drop | .cleanup => []

def history (s : Scratch) : List Step → List String
  | [] => []
  | step :: rest => s.registers step ++ (s.perform step).history rest

def Step.handlesAfter (n : Nat) : Step → Nat
  | .clone => n + 1
  | .drop => n - 1
  | .register _ | .create _ | .cleanup => n

def Empties (s : Scratch) (step : Step) : Prop := step = .cleanup ∨ step = .drop ∧ s.handles ≤ 1

variable {s : Scratch} {paths : List String} {path : String} {node : FileNode}

theorem cleanup_keeping (h : s.keep = true) :
    s.cleanup = (0, [], { s with registered := [] }) := by
  rw [cleanup, if_pos h]

theorem cleanup_clears (h : s.keep = false) :
    s.cleanup.1 = (s.registered.filterMap s.tree.filePlace?).toFinset.card ∧
      s.tree.Clears s.cleanup.2.2.tree s.registered := by
  obtain ⟨t', ws', hfold, hclears⟩ := foldl_removeStep s.registered s.tree 0 []
  have hcleanup : s.cleanup =
      (0 + (s.registered.filterMap s.tree.filePlace?).toFinset.card, ws',
        { s with tree := t', registered := [] }) := by
    rw [cleanup, h]
    simp [hfold]
  rw [hcleanup]
  exact ⟨Nat.zero_add _, hclears⟩

@[simp]
theorem cleanup_registered (s : Scratch) : s.cleanup.2.2.registered = [] := by
  unfold cleanup
  split <;> rfl

@[simp]
theorem cleanup_keep (s : Scratch) : s.cleanup.2.2.keep = s.keep := by
  unfold cleanup
  split <;> rfl

/-- What a step that makes a file does: nothing, or a file is made where nothing was. -/
theorem create_cases (s : Scratch) (path : String) :
    (s.perform (.create path) = s ∧ s.registers (.create path) = []) ∨
      ∃ t' place, s.tree.place? path = some place ∧ s.tree.nodeAt? place = none ∧
        s.tree.Sets t' place (some (.file .empty)) ∧
        s.registers (.create path) = [path] ∧
        s.perform (.create path) =
          { s with
            tree := t'
            registered := s.registered ++ [path]
            created := path :: s.created } := by
  cases hcreate : s.tree.create path with
  | error cause =>
    have hfailed : s.createAt path = .error cause := by
      rw [createAt, hcreate]
      rfl
    exact .inl (by simp [perform, registers, hfailed, Except.toBool])
  | ok t' =>
    obtain ⟨place, hplace, hfree, hsets⟩ := sets_create hcreate
    have hmade : s.createAt path = .ok
        { s with
          tree := t'
          registered := s.registered ++ [path]
          created := path :: s.created } := by
      rw [createAt, hcreate]
      rfl
    refine .inr ⟨t', place, hplace, hfree, hsets, ?_⟩
    simp [perform, registers, hmade, Except.toBool]

/-- A new file comes from the step with the path that was picked for it. -/
theorem perform_of_create {start ending : String} {made : Scratch}
    (h : s.create start ending = .ok (path, made)) :
    s.perform (.create path) = made ∧ s.registers (.create path) = [path] := by
  unfold create at h
  dsimp only at h
  cases hmade : s.createAt (s.pick s.tree start ending) with
  | error cause => simp [hmade, Except.map] at h
  | ok _ =>
    obtain ⟨rfl, rfl⟩ : s.pick s.tree start ending = path ∧ _ = made := by
      simpa [hmade, Except.map] using h
    simp [perform, registers, hmade, Except.toBool]

theorem drop_last (h : s.handles ≤ 1) : s.drop = { s.cleanup.2.2 with handles := 0 } := if_pos h

theorem drop_shared (h : 1 < s.handles) : s.drop = { s with handles := s.handles - 1 } :=
  if_neg (Nat.not_le.2 h)

@[simp]
theorem cleanup_handles (s : Scratch) : s.cleanup.2.2.handles = s.handles := by
  unfold cleanup
  split <;> rfl

@[simp]
theorem perform_keep (s : Scratch) (step : Step) : (s.perform step).keep = s.keep := by
  cases step with
  | create path =>
    obtain ⟨hsame, _⟩ | ⟨t', place, _, _, _, _, hmade⟩ := s.create_cases path
    · rw [hsame]
    · rw [hmade]
  | drop => simp only [perform, drop]; split <;> simp
  | cleanup => exact s.cleanup_keep
  | register | clone => rfl

theorem perform_handles (s : Scratch) (step : Step) :
    (s.perform step).handles = step.handlesAfter s.handles := by
  cases step with
  | create path =>
    obtain ⟨hsame, _⟩ | ⟨t', place, _, _, _, _, hmade⟩ := s.create_cases path
    · rw [hsame, Step.handlesAfter]
    · rw [hmade, Step.handlesAfter]
  | drop =>
    rcases Nat.lt_or_ge 1 s.handles with hshared | hlast
    · rw [perform, drop_shared hshared, Step.handlesAfter]
    · rw [perform, drop_last hlast, Step.handlesAfter, Nat.sub_eq_zero_of_le hlast]
  | cleanup => exact s.cleanup_handles
  | register | clone => rfl

/-! ## What is registered is gone or waits -/

/-- Of the paths registered so far, none names a file that no path on the register names. -/
structure Tracks (s : Scratch) (paths : List String) : Prop where
  registered : s.registered ⊆ paths
  waits : s.keep = false → ∀ path ∈ paths, s.tree.isFile path = true →
    ∃ other ∈ s.registered, s.tree.place? other = s.tree.place? path

theorem Tracks.gone (h : s.Tracks paths) (hkeep : s.keep = false) (hpath : path ∈ paths) :
    s.cleanup.2.2.tree.isFile path = false := by
  rw [Bool.eq_false_iff]
  intro hfile
  obtain ⟨hbefore, hother⟩ := (cleanup_clears hkeep).2.of_isFile hfile
  obtain ⟨other, hwaits, hsame⟩ := h.waits hkeep path hpath hbefore
  exact hother other hwaits hsame

theorem Tracks.congr {s' : Scratch} (h : s.Tracks paths) (htree : s'.tree = s.tree)
    (hkeep : s'.keep = s.keep) (hregistered : s'.registered = s.registered) : s'.Tracks paths := by
  refine ⟨hregistered ▸ h.registered, fun hkept path hpath hfile => ?_⟩
  rw [htree] at hfile ⊢
  rw [hregistered]
  exact h.waits (hkeep ▸ hkept) path hpath hfile

theorem Tracks.cleanup (h : s.Tracks paths) : s.cleanup.2.2.Tracks paths := by
  refine ⟨by simp, fun hkeep path hpath hfile => ?_⟩
  rw [cleanup_keep] at hkeep
  rw [h.gone hkeep hpath] at hfile
  cases hfile

theorem Tracks.register (h : s.Tracks paths) (path : String) :
    (s.register path).Tracks (paths ++ [path]) := by
  refine ⟨List.append_subset.2 ⟨fun other hother => ?_, by simp⟩,
    fun hkeep other hother hfile => ?_⟩
  · exact List.mem_append_left _ (h.registered hother)
  · rcases List.mem_append.1 hother with hold | hnew
    · obtain ⟨waiting, hwaits, hsame⟩ := h.waits hkeep other hold hfile
      exact ⟨waiting, List.mem_append_left _ hwaits, hsame⟩
    · exact ⟨other, List.mem_append_right _ hnew, rfl⟩

theorem Tracks.put {t' : FileTree} {place : Place} {bytes : ByteArray} (h : s.Tracks paths)
    (hplace : s.tree.place? path = some place)
    (hsets : s.tree.Sets t' place (some (.file bytes))) :
    Tracks { s with tree := t', registered := s.registered ++ [path] } (paths ++ [path]) := by
  have hregistered := h.register path
  have hplaces := hsets.sameDirectories.place?_eq
  refine ⟨hregistered.registered, fun hkeep other hother hfile => ?_⟩
  obtain ⟨place', bytes', hplace', hnode⟩ := isFile_iff.1 hfile
  simp only [hplaces] at hplace' ⊢
  rw [hsets.nodeAt?] at hnode
  by_cases heq : place' = place
  · exact ⟨path, by simp, by rw [hplace, hplace', heq]⟩
  · rw [if_neg heq] at hnode
    exact hregistered.waits hkeep other hother (isFile_iff.2 ⟨place', bytes', hplace', hnode⟩)

theorem Tracks.perform (h : s.Tracks paths) (step : Step) :
    (s.perform step).Tracks (paths ++ s.registers step) := by
  cases step with
  | register path => exact h.register path
  | create path =>
    obtain ⟨hsame, hnone⟩ | ⟨t', place, hplace, _, hsets, hregisters, hmade⟩ := s.create_cases path
    · rwa [hsame, hnone, List.append_nil]
    · rw [hmade, hregisters]
      exact (h.put hplace hsets).congr rfl rfl rfl
  | clone =>
    rw [registers, List.append_nil]
    exact h.congr rfl rfl rfl
  | drop =>
    rw [registers, List.append_nil, Scratch.perform]
    rcases Nat.lt_or_ge 1 s.handles with hshared | hlast
    · rw [drop_shared hshared]
      exact h.congr rfl rfl rfl
    · rw [drop_last hlast]
      exact h.cleanup.congr rfl rfl rfl
  | cleanup =>
    rw [registers, List.append_nil]
    exact h.cleanup

theorem Tracks.run (h : s.Tracks paths) (steps : List Step) :
    (s.run steps).Tracks (paths ++ s.history steps) := by
  induction steps generalizing s paths with
  | nil => rwa [history, List.append_nil]
  | cons step rest ih =>
    rw [Scratch.run, List.foldl_cons, history, ← List.append_assoc]
    exact ih (h.perform step)

@[simp]
theorem run_keep (s : Scratch) (steps : List Step) : (s.run steps).keep = s.keep := by
  induction steps generalizing s with
  | nil => rfl
  | cons step rest ih => rw [run, List.foldl_cons, ← run, ih, perform_keep]

theorem run_handles (s : Scratch) (steps : List Step) :
    (s.run steps).handles = steps.foldl Step.handlesAfter s.handles := by
  induction steps generalizing s with
  | nil => rfl
  | cons step rest ih => rw [run, List.foldl_cons, ← run, ih, perform_handles, List.foldl_cons]

/-! ## What a step takes away -/

theorem find_perform (hfind : s.tree.find path = .ok node) (step : Step) :
    (s.perform step).tree.find path = .ok node ∨
      s.keep = false ∧ s.Empties step ∧ s.tree.isFile path = true ∧
        ∃ other ∈ s.registered, s.tree.place? other = s.tree.place? path := by
  have hcleanup : s.cleanup.2.2.tree.find path = .ok node ∨
      s.keep = false ∧ s.tree.isFile path = true ∧
        ∃ other ∈ s.registered, s.tree.place? other = s.tree.place? path := by
    cases hkeep : s.keep with
    | true =>
      left
      rwa [cleanup_keeping hkeep]
    | false => exact ((cleanup_clears hkeep).2.find_or hfind).imp_right fun h => ⟨rfl, h⟩
  cases step with
  | register | clone => exact .inl hfind
  | create path =>
    left
    obtain ⟨hsame, _⟩ | ⟨t', place, _, hfree, hsets, _, hmade⟩ := s.create_cases path
    · rwa [hsame]
    · rw [hmade]
      exact hsets.find_of_free hfree hfind
  | drop =>
    rcases Nat.lt_or_ge 1 s.handles with hshared | hlast
    · left
      rwa [perform, drop_shared hshared]
    · rw [perform, drop_last hlast]
      exact hcleanup.imp_right fun ⟨hkeep, h⟩ => ⟨hkeep, .inr ⟨rfl, hlast⟩, h⟩
  | cleanup => exact hcleanup.imp_right fun ⟨hkeep, h⟩ => ⟨hkeep, .inl rfl, h⟩

/-! ## Runs -/

/-- What holds of the handles at a moment, when `paths` are all that were registered up to then. -/
structure Tidy (s : Scratch) (paths : List String) : Prop where
  /-- What a step takes away was registered and is not to be kept, and the step empties the
  register. -/
  spares : ∀ (step : Step) (path : String) (node : FileNode), s.tree.find path = .ok node →
    (s.perform step).tree.find path = .ok node ∨
      s.keep = false ∧ s.Empties step ∧ s.tree.isFile path = true ∧
        ∃ other ∈ s.registered, s.tree.place? other = s.tree.place? path
  registered : s.registered ⊆ paths
  emptied : s.cleanup.2.2.registered = []
  kept : s.keep = true → s.cleanup.1 = 0
  counted : s.keep = false →
    s.cleanup.1 = (s.registered.filterMap s.tree.filePlace?).toFinset.card
  again : s.cleanup.2.2.cleanup.1 = 0
  gone : s.keep = false → ∀ path ∈ paths, s.cleanup.2.2.tree.isFile path = false
  shared : 1 < s.handles → s.drop.tree = s.tree
  last : s.keep = false → s.handles ≤ 1 → ∀ path ∈ paths, s.drop.tree.isFile path = false

theorem cleanup_of_empty (h : s.registered = []) : s.cleanup.1 = 0 := by
  cases hkeep : s.keep with
  | true => rw [cleanup_keeping hkeep]
  | false => rw [(cleanup_clears hkeep).1, h, List.filterMap_nil, List.toFinset_nil,
      Finset.card_empty]

theorem Tracks.tidy (h : s.Tracks paths) : s.Tidy paths where
  spares step _ _ hfind := find_perform hfind step
  registered := h.registered
  emptied := s.cleanup_registered
  kept hkeep := by rw [cleanup_keeping hkeep]
  counted hkeep := (cleanup_clears hkeep).1
  again := cleanup_of_empty s.cleanup_registered
  gone hkeep _ hpath := h.gone hkeep hpath
  shared hshared := by rw [drop_shared hshared]
  last hkeep hlast path hpath := by
    rw [drop_last hlast]
    exact h.gone hkeep hpath

/-- At every moment of a run of handles, nothing that was not registered is removed, and nothing
that was is left behind by a cleanup or the last handle, unless the files are kept. -/
theorem tidy_run (tree : FileTree) (keep : Bool) (steps : List Step) :
    let start : Scratch := { tree, keep }
    (start.run steps).keep = keep ∧
      (start.run steps).handles = steps.foldl Step.handlesAfter 1 ∧
      (start.run steps).Tidy (start.history steps) := by
  intro start
  have htracks : start.Tracks [] := ⟨List.nil_subset _, fun _ path hpath => by cases hpath⟩
  exact ⟨run_keep start steps, run_handles start steps, (htracks.run steps).tidy⟩

def twoFiles : FileTree :=
  (({} : FileTree).write "/tmp/mine" "listing".toUTF8).write "/tmp/notes" "notes".toUTF8

def sharing : List Step :=
  [.register "/tmp/mine", .clone, .register "/tmp/./mine", .create "/tmp/made", .drop]

theorem tidy_run_sharing :
    let start : Scratch := { tree := twoFiles }
    (start.run sharing).handles = 1 ∧ (start.run sharing).cleanup.1 = 2 ∧
      (start.run sharing).drop.tree.isFile "/tmp/mine" = false ∧
        (start.run sharing).drop.tree.isFile "/tmp/notes" = true := by
  intro start
  obtain ⟨hkeep, hhandles, htidy⟩ := tidy_run twoFiles false sharing
  have hone : (start.run sharing).handles = 1 := hhandles.trans (by decide)
  refine ⟨hone, (htidy.counted hkeep).trans (by decide +kernel),
    htidy.last hkeep (Nat.le_of_eq hone) "/tmp/mine" (by decide +kernel), by decide +kernel⟩

end Scratch

/-- A session leaves none of its temporary files, whether or not it yields a report. -/
theorem Session.scratch_after_run (s : Session) (w : Workspace) :
    let before := (s.execute.run.run w).2.scratch
    let after := (s.run.run.run w).2.scratch
    after.registered = [] ∧ (before.keep = false → ∀ path ∈ before.registered,
      after.tree.isFile path = false) := by
  intro before after
  have hafter : after = before.cleanup.2.2 := by
    simp only [after, before, Session.run, ExceptT.run_mk, StateT.run_bind]
    rfl
  have htracks : before.Tracks before.registered :=
    ⟨List.Subset.refl _, fun _ path hpath _ => ⟨path, hpath, rfl⟩⟩
  rw [hafter]
  exact ⟨before.cleanup_registered, fun hkeep _ hpath => htracks.gone hkeep hpath⟩

end TraceCoverage

import TraceCoverage.Proofs.TreeMap
import TraceCoverage.Session.FileTree
import Mathlib.Data.List.Basic

/-!
# Changes of a file tree

The way along a path goes through directories alone, so trees with the same directories agree on
where it leads. To make a file where nothing was, or to take one away, leaves the directories alone
and changes no other place.
-/

namespace TraceCoverage.FileTree

variable {t t' : FileTree} {path : String} {place place' : Place} {part : String}
  {steps paths : List String} {node : FileNode}

/-! ## Places of paths -/

/-- Where a path leads. Two paths can lead to one place. -/
def place? (t : FileTree) (path : String) : Option Place := (t.locate path).toOption

def filePlace? (t : FileTree) (path : String) : Option Place :=
  if t.isFile path then t.place? path else none

theorem place?_eq_some_iff : t.place? path = some place ↔ t.locate path = .ok place := by
  unfold place?
  cases t.locate path <;> simp [Except.toOption]

theorem find_eq_ok_iff :
    t.find path = .ok node ↔ ∃ place, t.place? path = some place ∧ t.nodeAt? place = some node := by
  simp only [place?_eq_some_iff]
  unfold find
  cases t.locate path with
  | error cause => simp
  | ok place =>
    simp only [Except.ok.injEq, exists_eq_left']
    cases t.nodeAt? place <;> simp

theorem isFile_iff : t.isFile path = true ↔
    ∃ place bytes, t.place? path = some place ∧ t.nodeAt? place = some (.file bytes) := by
  have hfind : t.isFile path = true ↔ ∃ bytes, t.find path = .ok (.file bytes) := by
    unfold isFile
    split
    next bytes hfind => simp [hfind]
    next hother => simpa using hother
  simp only [hfind, find_eq_ok_iff]
  exact exists_comm

theorem filePlace?_eq_some_iff : t.filePlace? path = some place ↔
    t.place? path = some place ∧ ∃ bytes, t.nodeAt? place = some (.file bytes) := by
  unfold filePlace?
  split
  next hfile =>
    obtain ⟨place', bytes, hplace, hnode⟩ := isFile_iff.1 hfile
    simp only [hplace, Option.some.injEq]
    constructor
    · rintro rfl
      exact ⟨rfl, bytes, hnode⟩
    · exact fun h => h.1
  next hfile =>
    simp only [reduceCtorEq, false_iff]
    rintro ⟨hplace, bytes, hnode⟩
    exact hfile (isFile_iff.2 ⟨place, bytes, hplace, hnode⟩)

/-! ## Ways through directories -/

theorem walk_cons_eq_ok_iff : t.walk place (part :: steps) = .ok place' ↔
    t.nodeAt? place = some .directory ∧ part.utf8ByteSize ≤ nameLimit ∧
      t.walk (place.step part) steps = .ok place' := by
  rw [walk]
  cases t.nodeAt? place with
  | none => simp
  | some node =>
    cases node with
    | file bytes => simp
    | directory =>
      dsimp only
      split
      next hlong => simp [Nat.not_le.2 hlong]
      next hshort => simp [Nat.not_lt.1 hshort]

theorem way_of_walk (h : t.walk place steps = .ok place') :
    steps.foldl Place.step place = place' ∧
      ∀ other ∈ steps.scanl Place.step place, other ≠ place' →
        t.nodeAt? other = some .directory := by
  induction steps generalizing place with
  | nil =>
    obtain rfl : place = place' := by simpa [walk] using h
    simp
  | cons part rest ih =>
    obtain ⟨hdirectory, _, hrest⟩ := walk_cons_eq_ok_iff.1 h
    obtain ⟨hend, hway⟩ := ih hrest
    rw [List.scanl_cons, List.forall_mem_cons]
    exact ⟨hend, fun _ => hdirectory, hway⟩

theorem place?_eq_some_iff_walk : t.place? path = some place ↔
    ('\x00' ∉ path.toList ∧ path.isEmpty = false ∧ path.utf8ByteSize ≤ pathLimit) ∧
      t.walk (t.start path) (Place.steps path) = .ok place := by
  rw [place?_eq_some_iff, locate]
  simp only [List.contains_iff_mem]
  split
  next hnul => simp [hnul]
  next hnul =>
    split
    next hempty => simp [hempty]
    next hempty =>
      split
      next hlong => simp [Nat.not_le.2 hlong]
      next hlong => simp [hnul, hempty, Nat.not_lt.1 hlong]

structure SameDirectories (t t' : FileTree) : Prop where
  working : t'.working = t.working
  directory_iff : ∀ place, t'.nodeAt? place = some .directory ↔ t.nodeAt? place = some .directory

theorem SameDirectories.walk_eq_ok_iff (h : t.SameDirectories t') :
    t'.walk place steps = .ok place' ↔ t.walk place steps = .ok place' := by
  induction steps generalizing place with
  | nil => rfl
  | cons part rest ih => rw [walk_cons_eq_ok_iff, walk_cons_eq_ok_iff, h.directory_iff, ih]

theorem SameDirectories.place?_eq (h : t.SameDirectories t') (path : String) :
    t'.place? path = t.place? path := by
  have hstart : t'.start path = t.start path := by rw [start, start, h.working]
  apply Option.ext
  intro place
  rw [place?_eq_some_iff_walk, place?_eq_some_iff_walk, hstart, h.walk_eq_ok_iff]

/-! ## Changes -/

/-- One place changes, which has no directory before or after. -/
structure Sets (t t' : FileTree) (place : Place) (node? : Option FileNode) : Prop where
  working : t'.working = t.working
  nodeAt? : ∀ other, t'.nodeAt? other = if other = place then node? else t.nodeAt? other
  before : t.nodeAt? place ≠ some .directory
  after : node? ≠ some .directory

theorem Sets.sameDirectories {node? : Option FileNode} (h : t.Sets t' place node?) :
    t.SameDirectories t' := by
  refine ⟨h.working, fun other => ?_⟩
  rw [h.nodeAt?]
  split
  next heq => simp [heq, h.before, h.after]
  next => rfl

theorem getElem?_foldl_insertIfNew (way : List Place) (nodes : Std.ExtTreeMap Place FileNode)
    (place : Place) :
    (way.foldl (fun nodes place => nodes.insertIfNew place .directory) nodes)[place]? =
      if place ∈ way then some (nodes[place]?.getD FileNode.directory) else nodes[place]? := by
  induction way generalizing nodes with
  | nil => simp
  | cons other rest ih =>
    rw [List.foldl_cons, ih, TreeMap.getElem?_insertIfNew_eq]
    by_cases heq : other = place
    · simp [heq]
    · simp [heq, Ne.symm heq]

theorem not_isSuffixOf (h : t.nodeAt? place ≠ some .directory) :
    place.isSuffixOf t.working = false := by
  unfold nodeAt? at h
  exact Bool.eq_false_iff.2 fun hsuffix => h (if_pos hsuffix)

theorem sets_write (hplace : t.place? path = some place) (hfree : t.nodeAt? place = none)
    (bytes : ByteArray) : t.Sets (t.write path bytes) place (some (.file bytes)) := by
  obtain ⟨hend, hway⟩ := way_of_walk (place?_eq_some_iff_walk.1 hplace).2
  have hlast : ((Place.steps path).scanl Place.step (t.start path)).getLastD [] = place := by
    rw [List.getLastD_eq_getLast?, List.getLast?_scanl, hend, Option.getD_some]
  have hbefore : t.nodeAt? place ≠ some .directory := by simp [hfree]
  refine ⟨rfl, fun other => ?_, hbefore, by simp⟩
  unfold nodeAt? at hway ⊢
  simp only [write, put, hlast, TreeMap.getElem?_insert_eq, getElem?_foldl_insertIfNew]
  by_cases heq : other = place
  · simp [heq, not_isSuffixOf hbefore]
  · rw [if_neg heq, if_neg (Ne.symm heq)]
    split
    next => rfl
    next hsuffix =>
      split
      next hmem =>
        have hdirectory := hway other hmem heq
        rw [if_neg hsuffix] at hdirectory
        simp [hdirectory]
      next => rfl

theorem sets_create (h : t.create path = .ok t') :
    ∃ place, t.place? path = some place ∧ t.nodeAt? place = none ∧
      t.Sets t' place (some (.file .empty)) := by
  unfold create at h
  cases hplace : t.locate path with
  | error cause => simp [hplace] at h
  | ok place =>
    rw [hplace] at h
    have hplace := place?_eq_some_iff.2 hplace
    cases hnode : t.nodeAt? place with
    | some node => simp [hnode] at h
    | none =>
      simp only [hnode, Except.ok.injEq] at h
      subst h
      exact ⟨place, hplace, hnode, sets_write hplace hnode .empty⟩

theorem exists_remove (h : t.filePlace? path = some place) :
    ∃ t', t.remove path = .ok t' ∧ t.Sets t' place none := by
  obtain ⟨hplace, bytes, hnode⟩ := filePlace?_eq_some_iff.1 h
  have hbefore : t.nodeAt? place ≠ some .directory := by simp [hnode]
  refine ⟨{ t with nodes := t.nodes.erase place }, ?_, rfl, fun other => ?_, hbefore, by simp⟩
  · rw [remove, place?_eq_some_iff.1 hplace]
    simp only [hnode]
  · unfold nodeAt?
    simp only [TreeMap.getElem?_erase_eq]
    by_cases heq : other = place
    · simp [heq, not_isSuffixOf hbefore]
    · rw [if_neg heq, if_neg (Ne.symm heq)]

theorem remove_error (h : t.filePlace? path = none) : ∃ cause, t.remove path = .error cause := by
  unfold remove
  cases hplace : t.locate path with
  | error cause => exact ⟨cause, rfl⟩
  | ok place =>
    dsimp only
    cases hnode : t.nodeAt? place with
    | none => exact ⟨_, rfl⟩
    | some node =>
      cases node with
      | directory => exact ⟨_, rfl⟩
      | file bytes =>
        have hfile := filePlace?_eq_some_iff.2 ⟨place?_eq_some_iff.2 hplace, bytes, hnode⟩
        rw [h] at hfile
        cases hfile

theorem Sets.filePlace?_eq (h : t.Sets t' place none) (path : String) :
    t'.filePlace? path = (t.filePlace? path).filter (· ≠ place) := by
  apply Option.ext
  intro other
  rw [Option.filter_eq_some_iff, filePlace?_eq_some_iff, filePlace?_eq_some_iff,
    h.sameDirectories.place?_eq, h.nodeAt?]
  by_cases heq : other = place <;> simp [heq]

theorem Sets.filterMap_filePlace? (h : t.Sets t' place none) (paths : List String) :
    paths.filterMap t'.filePlace? = (paths.filterMap t.filePlace?).filter (· ≠ place) := by
  rw [List.filter_filterMap]
  exact List.filterMap_congr fun path _ => h.filePlace?_eq path

theorem Sets.find_of_free {node? : Option FileNode} (h : t.Sets t' place node?)
    (hfree : t.nodeAt? place = none) (hfind : t.find path = .ok node) :
    t'.find path = .ok node := by
  obtain ⟨other, hother, hnode⟩ := find_eq_ok_iff.1 hfind
  have hne : other ≠ place := by
    rintro rfl
    rw [hfree] at hnode
    cases hnode
  refine find_eq_ok_iff.2 ⟨other, ?_, ?_⟩
  · rwa [h.sameDirectories.place?_eq]
  · rwa [h.nodeAt?, if_neg hne]

/-! ## Removing several files -/

/-- The files at some paths are gone, and nothing else changed. -/
structure Clears (t t' : FileTree) (paths : List String) : Prop where
  working : t'.working = t.working
  nodeAt? : ∀ place,
    t'.nodeAt? place = if place ∈ paths.filterMap t.filePlace? then none else t.nodeAt? place

theorem Clears.sameDirectories (h : t.Clears t' paths) : t.SameDirectories t' := by
  refine ⟨h.working, fun place => ?_⟩
  rw [h.nodeAt?]
  split
  next hmem =>
    obtain ⟨path, _, hfile⟩ := List.mem_filterMap.1 hmem
    obtain ⟨_, bytes, hnode⟩ := filePlace?_eq_some_iff.1 hfile
    simp [hnode]
  next => rfl

theorem Clears.find_or (h : t.Clears t' paths) (hfind : t.find path = .ok node) :
    t'.find path = .ok node ∨
      t.isFile path = true ∧ ∃ other ∈ paths, t.place? other = t.place? path := by
  obtain ⟨place, hplace, hnode⟩ := find_eq_ok_iff.1 hfind
  by_cases hmem : place ∈ paths.filterMap t.filePlace?
  · obtain ⟨other, hother, hfile⟩ := List.mem_filterMap.1 hmem
    obtain ⟨hsame, bytes, hbytes⟩ := filePlace?_eq_some_iff.1 hfile
    exact .inr ⟨isFile_iff.2 ⟨place, bytes, hplace, hbytes⟩, other, hother, hsame.trans hplace.symm⟩
  · refine .inl (find_eq_ok_iff.2 ⟨place, ?_, ?_⟩)
    · rwa [h.sameDirectories.place?_eq]
    · rwa [h.nodeAt?, if_neg hmem]

theorem Clears.of_isFile (h : t.Clears t' paths) (hfile : t'.isFile path = true) :
    t.isFile path = true ∧ ∀ other ∈ paths, t.place? other ≠ t.place? path := by
  obtain ⟨place, bytes, hplace, hnode⟩ := isFile_iff.1 hfile
  rw [h.sameDirectories.place?_eq] at hplace
  rw [h.nodeAt?, Option.ite_none_left_eq_some] at hnode
  obtain ⟨hleft, hnode⟩ := hnode
  refine ⟨isFile_iff.2 ⟨place, bytes, hplace, hnode⟩, fun other hother hsame => hleft ?_⟩
  exact List.mem_filterMap.2
    ⟨other, hother, filePlace?_eq_some_iff.2 ⟨hsame.trans hplace, bytes, hnode⟩⟩

end TraceCoverage.FileTree

import TraceCoverage.Executable.Basic
import TraceCoverage.Proofs.Coverage.Bytes

/-!
# Marking the maps of an executable

Everything that a trace does to an executable is to add flags to the bytes of its maps. `mark`
adds flags to all bytes at once; it moves no symbol and no map.
-/

namespace TraceCoverage.Executable

abbrev Marks := String → Nat → Flags

def Marks.none : Marks := fun _ _ => Flags.empty

def Marks.union (g g' : Marks) : Marks := fun name i => (g name i).union (g' name i)

/-- The executable with flags added to every byte of its maps. -/
def mark (e : Executable) (g : Marks) : Executable :=
  { e with maps := e.maps.map fun name m => m.mark (g name) }

/-- Marks that change neither where instructions start nor which of them are branches. -/
def Marks.Inert (g : Marks) : Prop :=
  ∀ name i, (g name i).isStart = false ∧ (g name i).isBranch = false

variable {e : Executable} {g g' : Marks} {a : Address} {name : String}

@[simp]
theorem Marks.union_none (g : Marks) : g.union .none = g := by
  funext name i
  exact Flags.union_empty _

@[simp]
theorem Marks.none_union (g : Marks) : Marks.none.union g = g := by
  funext name i
  exact Flags.empty_union _

theorem Marks.union_assoc (g g' g'' : Marks) : (g.union g').union g'' = g.union (g'.union g'') := by
  funext name i
  exact Flags.union_assoc _ _ _

theorem Marks.inert_none : Marks.none.Inert := by
  intro name i
  exact ⟨show Flags.empty.isStart = false by decide, show Flags.empty.isBranch = false by decide⟩

theorem Marks.Inert.union (hg : g.Inert) (hg' : g'.Inert) : (g.union g').Inert := by
  intro name i
  simp [Marks.union, Flags.isStart_union, Flags.isBranch_union, hg name i, hg' name i]

@[simp]
theorem getElem?_maps_mark (name : String) :
    (e.mark g).maps[name]? = e.maps[name]?.map (·.mark (g name)) := by
  simp [mark]

theorem mark_mark : (e.mark g).mark g' = e.mark (g.union g') := by
  simp only [mark, Executable.mk.injEq, true_and, and_true]
  rw [Std.ExtTreeMap.map_map]
  congr 1
  funext name m
  exact CoverageMap.mark_mark _ _

@[simp]
theorem mark_none : e.mark .none = e := by
  have hid : (fun name (m : CoverageMap) => m.mark (Marks.none name)) = fun _ m => m := by
    funext name m
    exact CoverageMap.mark_empty
  simp [mark, hid]

/-! ## Looking up an address -/

theorem lookup?_eq_some_iff {m : CoverageMap} :
    e.lookup? a = some (name, m) ↔
      ∃ entry, e.symbols.at? a = some entry ∧ entry.name = name ∧ e.maps[name]? = some m ∧
        m.contains a := by
  unfold lookup?
  cases h : e.symbols.at? a with
  | none => simp
  | some entry =>
    simp only [Option.map_eq_some_iff, Prod.mk.injEq, Option.filter_eq_some_iff]
    constructor
    · rintro ⟨m', ⟨hm, hc⟩, rfl, rfl⟩
      exact ⟨entry, rfl, rfl, hm, hc⟩
    · rintro ⟨_, ⟨⟩, rfl, hm, hc⟩
      exact ⟨m, ⟨hm, hc⟩, rfl, rfl⟩

theorem getElem?_maps_of_lookup? {m : CoverageMap} (h : e.lookup? a = some (name, m)) :
    e.maps[name]? = some m := by
  obtain ⟨_, _, _, hm, _⟩ := lookup?_eq_some_iff.1 h
  exact hm

theorem offset?_of_lookup? {m : CoverageMap} (h : e.lookup? a = some (name, m)) :
    ∃ i, m.offset? a = some i := by
  obtain ⟨_, _, _, _, hc⟩ := lookup?_eq_some_iff.1 h
  exact CoverageMap.exists_offset? hc

theorem lookup?_mark :
    (e.mark g).lookup? a = (e.lookup? a).map fun (name, m) => (name, m.mark (g name)) := by
  have hs : (e.mark g).symbols = e.symbols := rfl
  unfold lookup?
  rw [hs]
  cases e.symbols.at? a with
  | none => rfl
  | some entry =>
    simp only [getElem?_maps_mark, Option.filter_map, Option.map_map]
    congr 1
    simp [Function.comp_def]

theorem exists_lookup?_mark {P : CoverageMap → Prop} :
    (∃ m, (e.mark g).lookup? a = some (name, m) ∧ P m) ↔
      ∃ m, e.lookup? a = some (name, m) ∧ P (m.mark (g name)) := by
  simp only [lookup?_mark, Option.map_eq_some_iff, Prod.mk.injEq]
  constructor
  · rintro ⟨_, ⟨⟨_, m⟩, hl, rfl, rfl⟩, hp⟩
    exact ⟨m, hl, hp⟩
  · rintro ⟨m, hl, hp⟩
    exact ⟨_, ⟨(name, m), hl, rfl, rfl⟩, hp⟩

theorem exists_lookup?_iff {name' : String} {m : CoverageMap} {P : CoverageMap → Prop}
    (hl : e.lookup? a = some (name', m)) :
    (∃ m, e.lookup? a = some (name, m) ∧ P m) ↔ name' = name ∧ P m := by
  rw [hl]
  simp only [Option.some.injEq, Prod.mk.injEq]
  constructor
  · rintro ⟨_, ⟨hn, rfl⟩, hp⟩
    exact ⟨hn, hp⟩
  · rintro ⟨hn, hp⟩
    exact ⟨m, ⟨hn, rfl⟩, hp⟩

/-- A change at an address that adds flags marks one map and no other. -/
theorem updateAt_eq_mark {f : CoverageMap → CoverageMap} {h : CoverageMap → Nat → Flags}
    (hf : ∀ m, f m = m.mark (h m)) :
    e.updateAt a f = e.mark fun name =>
      match e.lookup? a with
      | some (name', m) => if name' = name then h m else fun _ => Flags.empty
      | none => fun _ => Flags.empty := by
  unfold updateAt
  cases hl : e.lookup? a with
  | none => exact mark_none.symm
  | some found =>
    obtain ⟨name, m⟩ := found
    simp only [updateMap, mark, Executable.mk.injEq, true_and, and_true]
    apply Std.ExtTreeMap.ext_getElem?
    intro k
    rw [Std.ExtTreeMap.getElem?_modify, Std.ExtTreeMap.getElem?_map]
    simp only [Std.LawfulEqCmp.compare_eq_iff_eq]
    split
    next heq =>
      subst heq
      simp [getElem?_maps_of_lookup? hl, hf]
    next => simp

end TraceCoverage.Executable

import TraceCoverage.Proofs.Run.Merging
import TraceCoverage.Proofs.Run.Operations

/-!
# Trying again after a failure

An operation on a registry that fails changes nothing. Merging an executable is many of them, and
one that fails leaves the maps merged that came before it. Once the missing symbols and maps are
there, merging the executable again merges those maps a second time, which shows nowhere.
-/

namespace TraceCoverage

open CoverageMap

theorem Symbol.merging_merging (s : Symbol) (m : CoverageMap) :
    (s.merging m).merging m = s.merging m := by
  have hsame : ∀ o, o ∈ [m, m] ↔ o ∈ [m] := by simp
  have htwice := congrFun (joining_eq_of_mem_iff hsame) s
  simpa [joining, merging, Function.comp_def] using htwice

namespace Registry

/-! ## Repairs -/

/-- What is done about a symbol that a merge did not find, or found without a map. -/
inductive Repair where
  | insert (name : String)
  | makeMap (name : String) (size : UInt32)

def Repair.apply (r : Registry) : Repair → Registry
  | insert name => r.insert name
  | makeMap name size => (r.unifiedMap name size).state

def repair (r : Registry) (repairs : List Repair) : Registry := repairs.foldl Repair.apply r

variable {r x y : Registry} {name k : String} {done entries : List (String × CoverageMap)}

theorem Repair.analyzed_apply (r : Registry) (repair : Repair) :
    (repair.apply r).analyzed = r.analyzed := by
  cases repair with
  | insert name => rfl
  | makeMap name size => exact analyzed_unifiedMap r name size

theorem Repair.find?_apply_of_hasMap (repair : Repair) {s : Symbol} (hs : r.find? k = some s)
    (hu : s.unified.isSome = true) : (repair.apply r).find? k = some s := by
  cases repair with
  | insert name => rw [apply, find?_insert, hs, Option.some_or]
  | makeMap name size =>
    rw [apply, find?_unifiedMap, hs, Option.map_some, Symbol.making_of_unified hu, ite_self]

theorem Repair.find?_apply_congr (repair : Repair) (h : x.find? k = y.find? k) :
    (repair.apply x).find? k = (repair.apply y).find? k := by
  cases repair with
  | insert name => rw [apply, apply, find?_insert, find?_insert, h]
  | makeMap name size => rw [apply, apply, find?_unifiedMap, find?_unifiedMap, h]

/-! ## Maps that were merged before -/

def mergedOf (done : List (String × CoverageMap)) (k : String) (s : Symbol) : Symbol :=
  ((done.find? (·.1 == k)).map fun entry => s.merging entry.2).getD s

/-- The first registry is the second one, but some maps were merged into it. -/
structure Ahead (done : List (String × CoverageMap)) (x y : Registry) : Prop where
  found : ∀ k, x.find? k = (y.find? k).map (mergedOf done k)
  hasMap : ∀ entry ∈ done, y.HasMap entry.1
  analyzed : done = [] → x.analyzed = y.analyzed

theorem mergedOf_of_not_mem (hk : k ∉ done.map Prod.fst) : mergedOf done k = id := by
  have hnone : done.find? (·.1 == k) = none := by
    rw [List.find?_eq_none]
    intro entry hentry heq
    exact hk (List.mem_map.2 ⟨entry, hentry, by simpa using heq⟩)
  funext s
  rw [mergedOf, hnone, Option.map_none, Option.getD_none, id]

theorem mergedOf_cons_self (entry : String × CoverageMap) (done : List (String × CoverageMap))
    (s : Symbol) : mergedOf (entry :: done) entry.1 s = s.merging entry.2 := by
  simp [mergedOf]

theorem mergedOf_cons_of_ne {entry : String × CoverageMap} (hk : entry.1 ≠ k) (s : Symbol) :
    mergedOf (entry :: done) k s = mergedOf done k s := by
  simp [mergedOf, hk]

theorem isSome_unified_mergedOf (s : Symbol) :
    (mergedOf done k s).unified.isSome = s.unified.isSome := by
  rw [mergedOf]
  cases done.find? (·.1 == k) with
  | none => rfl
  | some entry => exact s.isSome_unified_merging entry.2

theorem Ahead.hasMap_iff (h : Ahead done x y) (k : String) : x.HasMap k ↔ y.HasMap k :=
  hasMap_iff_of_map (h.found k) isSome_unified_mergedOf

def unifiedSize? (r : Registry) (k : String) : Option Nat :=
  (r.find? k).bind fun s => s.unified.map CoverageMap.size

theorem unifiedSize_mergedOf (s : Symbol) :
    (mergedOf done k s).unified.map CoverageMap.size = s.unified.map CoverageMap.size := by
  rw [mergedOf]
  cases done.find? (·.1 == k) with
  | none => rfl
  | some entry =>
    rw [Option.map_some, Option.getD_some, Symbol.merging, Option.map_map]
    exact Option.map_congr fun u _ => size_merge

theorem warnings_merge_congr (h : x.unifiedSize? name = y.unifiedSize? name) (m : CoverageMap) :
    (x.merge name m).warnings = (y.merge name m).warnings := by
  have hwarnings : ∀ r : Registry, (r.merge name m).warnings =
      (r.unifiedSize? name).elim [] fun n =>
        if n = m.size then [] else [.sizeMismatch n m.size] := by
    intro r
    unfold merge unifiedSize? find?
    cases hs : r.symbols[name]? with
    | none => rfl
    | some s => cases hu : s.unified <;> simp [hu, mergeWarnings]
  rw [hwarnings, hwarnings, h]

theorem Ahead.merge_again {entry : String × CoverageMap} (h : Ahead (entry :: done) x y)
    (hnew : entry.1 ∉ done.map Prod.fst) :
    Ahead done (x.merge entry.1 entry.2).state (y.merge entry.1 entry.2).state := by
  obtain ⟨hentry, hdone⟩ := List.forall_mem_cons.1 h.hasMap
  refine ⟨fun k => ?_, fun entry' hmem => hasMap_merge_iff.2 (hdone entry' hmem), fun _ => ?_⟩
  · rw [find?_merge, find?_merge, h.found, Option.map_map, Option.map_map]
    refine Option.map_congr fun s _ => ?_
    rw [Function.comp_apply, Function.comp_apply]
    by_cases hk : entry.1 = k
    · subst hk
      rw [if_pos rfl, if_pos rfl, mergedOf_cons_self, mergedOf_of_not_mem hnew,
        Symbol.merging_merging, id]
    · rw [if_neg hk, if_neg hk, mergedOf_cons_of_ne hk]
  · rw [Bool.eq_iff_iff, analyzed_merge_iff, analyzed_merge_iff, h.hasMap_iff]
    simp [hentry]

namespace Ahead

variable (h : Ahead done x y)
include h

theorem find?_eq (hk : k ∉ done.map Prod.fst) : x.find? k = y.find? k := by
  rw [h.found, mergedOf_of_not_mem hk, Option.map_id, id]

theorem repair_one (repair : Repair) : Ahead done (repair.apply x) (repair.apply y) := by
  refine ⟨fun k => ?_, fun entry hentry => ?_, fun hdone => ?_⟩
  · by_cases hk : k ∈ done.map Prod.fst
    · obtain ⟨entry, hentry, rfl⟩ := List.mem_map.1 hk
      obtain ⟨s, hs, hu⟩ := h.hasMap entry hentry
      have hahead : x.find? entry.1 = some (mergedOf done entry.1 s) := by
        rw [h.found, find?, hs, Option.map_some]
      rw [repair.find?_apply_of_hasMap hahead (by rwa [isSome_unified_mergedOf]),
        repair.find?_apply_of_hasMap hs hu, Option.map_some]
    · rw [repair.find?_apply_congr (h.find?_eq hk), mergedOf_of_not_mem hk, Option.map_id, id]
  · obtain ⟨s, hs, hu⟩ := h.hasMap entry hentry
    exact ⟨s, repair.find?_apply_of_hasMap hs hu, hu⟩
  · rw [Repair.analyzed_apply, Repair.analyzed_apply, h.analyzed hdone]

theorem repair (repairs : List Repair) : Ahead done (x.repair repairs) (y.repair repairs) := by
  unfold Registry.repair
  induction repairs generalizing x y with
  | nil => exact h
  | cons one rest ih => exact ih (h.repair_one one)

theorem unifiedSize?_eq (k : String) : x.unifiedSize? k = y.unifiedSize? k := by
  rw [unifiedSize?, unifiedSize?, h.found, Option.bind_map]
  congr 1
  funext s
  exact unifiedSize_mergedOf s

end Ahead

theorem foldl_mergeStep_of_ahead (h : Ahead done x y) (hnames : (done.map Prod.fst).Nodup) (n : Nat)
    (warnings : List Warning) :
    done.foldl Executable.mergeStep { state := x, result := .ok n, warnings } =
      done.foldl Executable.mergeStep { state := y, result := .ok n, warnings } := by
  induction done generalizing x y n warnings with
  | nil =>
    rw [ext_find? (fun _ => h.find?_eq List.not_mem_nil) (h.analyzed rfl)]
  | cons entry rest ih =>
    rw [List.map_cons, List.nodup_cons] at hnames
    have hentry := h.hasMap entry List.mem_cons_self
    rw [List.foldl_cons, List.foldl_cons, mergeStep_of_hasMap hentry,
      mergeStep_of_hasMap ((h.hasMap_iff _).2 hentry), warnings_merge_congr (h.unifiedSize?_eq _)]
    exact ih (h.merge_again hnames.1) hnames.2 _ _

/-! ## Merging that stopped halfway -/

theorem exists_merged_before (entries : List (String × CoverageMap)) {r : Registry} (n : Nat)
    (warnings : List Warning) :
    ∃ done rest, entries = done ++ rest ∧ (∀ entry ∈ done, r.HasMap entry.1) ∧
      (entries.foldl Executable.mergeStep { state := r, result := .ok n, warnings }).state =
        (done.foldl Executable.mergeStep { state := r, result := .ok n, warnings }).state := by
  induction entries generalizing r n warnings with
  | nil => exact ⟨[], [], rfl, by simp, rfl⟩
  | cons entry rest ih =>
    by_cases hentry : r.HasMap entry.1
    · obtain ⟨done, others, rfl, hdone, hstate⟩ := ih (r := (r.merge entry.1 entry.2).state) (n + 1)
        (warnings ++ (r.merge entry.1 entry.2).warnings)
      refine ⟨entry :: done, others, rfl, ?_, ?_⟩
      · rw [List.forall_mem_cons]
        exact ⟨hentry, fun entry' hmem => hasMap_merge_iff.1 (hdone entry' hmem)⟩
      · rw [List.foldl_cons, List.foldl_cons, mergeStep_of_hasMap hentry, hstate]
    · -- The merge stops here, and the entries behind leave the registry alone.
      refine ⟨[], entry :: rest, rfl, by simp, ?_⟩
      cases hresult : (r.merge entry.1 entry.2).result with
      | ok => exact absurd (hasMap_of_merge_ok hresult) hentry
      | error cause =>
        have hstep : Executable.mergeStep { state := r, result := .ok n, warnings } entry =
            { state := r, result := .error cause
              warnings := warnings ++ (r.merge entry.1 entry.2).warnings } := by
          simp [Executable.mergeStep, hresult, merge_of_error hresult, Except.map]
        rw [List.foldl_cons, hstep, foldl_mergeStep_error rfl, List.foldl_nil]

theorem ahead_of_merged (hmaps : ∀ entry ∈ done, r.HasMap entry.1)
    (hnames : (done.map Prod.fst).Nodup) :
    Ahead done (done.foldl Executable.mergeStep { state := r, result := .ok 0 }).state r := by
  obtain ⟨n, hok⟩ := foldl_mergeStep_ok
    (o := { state := r, result := .ok 0 }) rfl hmaps
  refine ⟨fun k => ?_, hmaps, ?_⟩
  · rw [find?, foldl_mergeStep_of_ok hok, SymbolMap.getElem?_foldl_modify Prod.fst
      (fun entry s => s.merging entry.2) _ hnames]
    rfl
  · rintro rfl
    rfl

/-- After a merge that failed and any repairs, merging the executable ends as it would have without
that attempt. -/
theorem mergeInto_again (e : Executable) (r : Registry) (repairs : List Repair) :
    e.mergeInto ((e.mergeInto r).state.repair repairs) = e.mergeInto (r.repair repairs) := by
  obtain ⟨done, rest, hentries, hmaps, hstate⟩ :=
    exists_merged_before e.maps.toList (r := r) 0 []
  have hnames : (done.map Prod.fst).Nodup := by
    have hall := TreeMap.nodup_keys_toList e.maps
    rw [hentries, List.map_append] at hall
    exact (List.nodup_append.1 hall).1
  have hahead := (ahead_of_merged hmaps hnames).repair repairs
  have hstopped : (e.mergeInto r).state =
      (done.foldl Executable.mergeStep { state := r, result := .ok 0 }).state := hstate
  rw [hstopped]
  unfold Executable.mergeInto
  rw [hentries, List.foldl_append, List.foldl_append, foldl_mergeStep_of_ahead hahead hnames]

theorem mergeInto_ok_iff {e : Executable} :
    (∃ n, (e.mergeInto r).result = .ok n) ↔ ∀ name m, e.maps[name]? = some m → r.HasMap name := by
  constructor
  · rintro ⟨n, hn⟩ name m hm
    exact hasMap_of_foldl_mergeStep hn (name, m)
      (Std.ExtTreeMap.mem_toList_iff_getElem?_eq_some.2 hm)
  · exact mergeInto_ok

/-- Operations that fail do no damage. Those on one symbol leave the registry as it was. Merging an
executable fails if one of its symbols is not there or has no unified map; whatever symbols and maps
are then made, merging it again has the same result, and leaves the same registry, as if it had not
been tried before. -/
theorem unharmed_by_failures (r : Registry) :
    (∀ name base lines source cause, (r.adopt name base lines source).result = .error cause →
      (r.adopt name base lines source).state = r) ∧
    (∀ name size cause, (r.unifiedMap name size).result = .error cause →
      (r.unifiedMap name size).state = r) ∧
    (∀ name m cause, (r.merge name m).result = .error cause → (r.merge name m).state = r) ∧
    (∀ cause, r.count.result = .error cause → r.count.state = r) ∧
    (∀ (p : ResolvedSymbol) source cause, (p.adoptInto r source).result = .error cause →
      (p.adoptInto r source).state = r) ∧
    ∀ e : Executable,
      ((∃ n, (e.mergeInto r).result = .ok n) ↔
        ∀ name m, e.maps[name]? = some m → r.HasMap name) ∧
      ∀ repairs, e.mergeInto ((e.mergeInto r).state.repair repairs) =
        e.mergeInto (r.repair repairs) :=
  ⟨fun _ _ _ _ _ => adopt_of_error, fun _ _ _ => unifiedMap_of_error,
    fun _ _ _ => merge_of_error, fun _ => count_of_error, fun _ _ _ => adoptInto_of_error,
    fun e => ⟨mergeInto_ok_iff, mergeInto_again e r⟩⟩

def halfMapped : Registry := ((insert {} "f").unifiedMap "f" 1).state.analyze

def ranBoth : Executable :=
  let ran : CoverageMap :=
    { low := 0x100, flags := #[.start ||| .executed], nonempty := by decide, fits := by decide }
  { id := 0, file := "a.exe", maps := (Std.ExtTreeMap.empty.insert "f" ran).insert "g" ran }

theorem unharmed_by_failures_halfway :
    (halfMapped.adopt "g" 0 [] 0).state = halfMapped ∧
      (ranBoth.mergeInto halfMapped).result.toOption = none ∧
      (ranBoth.mergeInto halfMapped).state.analyzed = false ∧
      (ranBoth.mergeInto ((ranBoth.mergeInto halfMapped).state.repair
        [.insert "g", .makeMap "g" 1])).result.toOption = some 2 ∧
      ranBoth.mergeInto ((ranBoth.mergeInto halfMapped).state.repair
          [.insert "g", .makeMap "g" 1]) =
        ranBoth.mergeInto (halfMapped.repair [.insert "g", .makeMap "g" 1]) := by
  obtain ⟨hadopt, _, _, _, _, hmerge⟩ := unharmed_by_failures halfMapped
  have hunknown : (halfMapped.adopt "g" 0 [] 0).result = .error (.unknownSymbol "g") :=
    adopt_eq_error_iff.2 ⟨by decide +kernel, rfl⟩
  exact ⟨hadopt "g" 0 [] 0 _ hunknown, by decide +kernel, by decide +kernel, by decide +kernel,
    (hmerge ranBoth).2 _⟩

end Registry

end TraceCoverage

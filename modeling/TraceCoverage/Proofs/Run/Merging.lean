import TraceCoverage.Proofs.Run.Registry
import TraceCoverage.Proofs.Symbol.Unified

/-!
# Merging is a join

Executables are merged into a registry one after the other, each with a map for some of the
symbols. What comes out at a byte is the union of all that went in there, so it depends only on
which executables were merged, and not on their order, their grouping or how often one came.
-/

namespace TraceCoverage

namespace CoverageMap

variable {m : CoverageMap} {maps maps' : List CoverageMap} {i : Nat}

/-- The flags that some maps have at an offset from their first address, as far as they reach. -/
def joined (maps : List CoverageMap) (i : Nat) : Flags :=
  ((maps.filter fun m => i < m.size).map fun m => m.flagsAt (m.low + UInt32.ofNat i)).foldr
    Flags.union Flags.empty

/-- The second map is the first one with the flags of some maps joined in at each offset. -/
structure Joins (maps : List CoverageMap) (m m' : CoverageMap) : Prop where
  low : m'.low = m.low
  high : m'.high = m.high
  size : m'.size = m.size
  flags : ∀ i < m.size, m'.flagsAt (m'.low + UInt32.ofNat i) =
    (m.flagsAt (m.low + UInt32.ofNat i)).union (joined maps i)

theorem joined_eq_bytes (maps : List CoverageMap) (i : Nat) : joined maps i = bytes maps i := by
  induction maps with
  | nil => rfl
  | cons m rest ih =>
    rw [bytes_cons, ← ih]
    by_cases hi : i < m.size
    · rw [joined, List.filter_cons_of_pos (by simpa using hi), List.map_cons, List.foldr_cons]
      congr 1
      exact flagsAt_address hi
    · rw [byte_of_size_le (by omega), Flags.empty_union, joined,
        List.filter_cons_of_neg (by simpa using hi)]
      rfl

theorem joins_foldl_merge (m : CoverageMap) (maps : List CoverageMap) :
    Joins maps m (maps.foldl merge m) := by
  have hlow : (maps.foldl merge m).low = m.low := low_foldl_merge m maps
  have hsize : (maps.foldl merge m).size = m.size := size_foldl_merge m maps
  refine ⟨hlow, ?_, hsize, fun i hi => ?_⟩
  · rw [← UInt32.toNat_inj, toNat_high, toNat_high, hlow, hsize]
  · change (maps.foldl merge m).flagsAt ((maps.foldl merge m).address i) =
      (m.flagsAt (m.address i)).union (joined maps i)
    rw [flagsAt_address (by omega), flagsAt_address hi, joined_eq_bytes, byte_foldl_merge hi]

/-! ## Which maps were merged -/

theorem bytes_union_of_mem (hm : m ∈ maps) (i : Nat) :
    (bytes maps i).union (m.byte i) = bytes maps i := by
  induction maps with
  | nil => cases hm
  | cons o rest ih =>
    rw [bytes_cons]
    rcases List.mem_cons.1 hm with rfl | hmem
    · rw [Flags.union_right_comm, Flags.union_self]
    · rw [Flags.union_assoc, ih hmem]

theorem bytes_union_of_subset (h : maps' ⊆ maps) (i : Nat) :
    (bytes maps i).union (bytes maps' i) = bytes maps i := by
  induction maps' with
  | nil => exact Flags.union_empty _
  | cons m rest ih =>
    obtain ⟨hm, hrest⟩ := List.cons_subset.1 h
    rw [bytes_cons, ← Flags.union_assoc, bytes_union_of_mem hm, ih hrest]

theorem bytes_eq_of_mem_iff (h : ∀ m, m ∈ maps ↔ m ∈ maps') : bytes maps = bytes maps' := by
  funext i
  rw [← bytes_union_of_subset (fun m => (h m).2) i, Flags.union_comm,
    bytes_union_of_subset (fun m => (h m).1) i]

/-- The order of some maps, and how often each of them is merged, do not count. -/
theorem foldl_merge_eq_of_mem_iff (m : CoverageMap) (h : ∀ o, o ∈ maps ↔ o ∈ maps') :
    maps.foldl merge m = maps'.foldl merge m := by
  apply ext_byte (by simp) (by simp)
  intro i hi
  rw [size_foldl_merge] at hi
  rw [byte_foldl_merge hi, byte_foldl_merge hi, bytes_eq_of_mem_iff h]

end CoverageMap

def Symbol.joining (maps : List CoverageMap) (s : Symbol) : Symbol :=
  { s with unified := s.unified.map fun m => maps.foldl CoverageMap.merge m }

theorem Symbol.joining_eq_of_mem_iff {maps maps' : List CoverageMap}
    (h : ∀ m, m ∈ maps ↔ m ∈ maps') : Symbol.joining maps = Symbol.joining maps' := by
  funext s
  simp only [joining, CoverageMap.foldl_merge_eq_of_mem_iff _ h]

theorem Symbol.rel_joining (s : Symbol) (maps : List CoverageMap) :
    Option.Rel (CoverageMap.Joins maps) s.unified (s.joining maps).unified := by
  rw [joining]
  cases s.unified with
  | none => exact .none
  | some m => exact .some (CoverageMap.joins_foldl_merge m maps)

/-! ## Which executables were merged -/

theorem hasMap_of_foldl_mergeStep {o : Outcome Registry CoverageError Nat} {n : Nat}
    {entries : List (String × CoverageMap)}
    (h : (entries.foldl Executable.mergeStep o).result = .ok n) :
    ∀ entry ∈ entries, o.state.HasMap entry.1 := by
  induction entries generalizing o with
  | nil => simp
  | cons entry rest ih =>
    rw [List.foldl_cons] at h
    obtain ⟨hmerge, hstate⟩ := mergeStep_of_foldl_ok h
    refine List.forall_mem_cons.2 ⟨hasMap_of_merge_ok hmerge, fun entry' hmem => ?_⟩
    rw [← Registry.hasMap_merge_iff, ← hstate]
    exact ih h entry' hmem

namespace Pipeline

open CoverageMap

variable {r : Registry} {es es' : List Executable} {k : String}

theorem forEach_flatten {σ ε α β : Type} (step : σ → α → Outcome σ ε β) (s : σ)
    (groups : List (List α)) :
    forEach (forEach step) s groups = forEach step s groups.flatten := by
  induction groups generalizing s with
  | nil => rfl
  | cons group rest ih =>
    rw [List.flatten_cons]
    induction group generalizing s with
    | nil => simp [forEach, ih]
    | cons a others ih' =>
      have hothers := ih' (step s a).state
      simp only [forEach, List.cons_append] at hothers ⊢
      cases (step s a).result with
      | error cause => rfl
      | ok b =>
        simp only [← hothers]
        cases (forEach step (step s a).state others).result with
        | error cause => rfl
        | ok _ => simp

theorem mergeAll_groups (r : Registry) (groups : List (List Executable)) :
    forEach mergeAll r groups = mergeAll r groups.flatten :=
  forEach_flatten (fun (r : Registry) (e : Executable) => e.mergeInto r) r groups

def mapsOf (es : List Executable) (k : String) : List CoverageMap := es.filterMap (·.maps[k]?)

theorem find?_mergeAll (h : (mergeAll r es).result = .ok ()) (k : String) :
    (mergeAll r es).state.find? k = (r.find? k).map (·.joining (mapsOf es k)) := by
  rw [Registry.find?, getElem?_mergeAll h]
  refine congrArg (r.symbols[k]?.map ·) (funext fun s => ?_)
  clear h
  induction es generalizing s with
  | nil => simp [mapsOf, Symbol.joining]
  | cons e rest ih =>
    rw [List.foldl_cons, ih]
    cases he : e.maps[k]? with
    | none => simp [mapsOf, he]
    | some m =>
      simp only [mapsOf, List.filterMap_cons, he, Option.map_some, Option.getD_some,
        Symbol.merging, Symbol.joining, Option.map_map]
      rfl

theorem mergeAll_ok_iff : (mergeAll r es).result = .ok () ↔
    ∀ e ∈ es, ∀ k m, e.maps[k]? = some m → r.HasMap k := by
  refine ⟨fun h => ?_, mergeAll_ok⟩
  induction es generalizing r with
  | nil => simp
  | cons e rest ih =>
    simp only [mergeAll, forEach] at h
    cases he : (e.mergeInto r).result with
    | error cause => simp [he] at h
    | ok n =>
      simp only [he] at h
      refine List.forall_mem_cons.2 ⟨fun k m hm => ?_, fun e' he' k m hm => ?_⟩
      · exact hasMap_of_foldl_mergeStep he (k, m)
          (Std.ExtTreeMap.mem_toList_iff_getElem?_eq_some.2 hm)
      · exact (hasMap_mergeInto_iff he).1 (ih h e' he' k m hm)

theorem mergeAll_of_mem_iff (h : (mergeAll r es).result = .ok ()) (hmem : ∀ e, e ∈ es' ↔ e ∈ es) :
    (mergeAll r es').result = .ok () ∧
      (mergeAll r es').state.symbols = (mergeAll r es).state.symbols := by
  have hok : (mergeAll r es').result = .ok () :=
    mergeAll_ok fun e he => mergeAll_ok_iff.1 h e ((hmem e).1 he)
  refine ⟨hok, Std.ExtTreeMap.ext_getElem? fun {k} => ?_⟩
  have hmaps : ∀ m, m ∈ mapsOf es' k ↔ m ∈ mapsOf es k := by
    simp only [mapsOf, List.mem_filterMap, hmem, implies_true]
  have hfound := find?_mergeAll h k
  have hfound' := find?_mergeAll hok k
  rw [Symbol.joining_eq_of_mem_iff hmaps, ← hfound] at hfound'
  exact hfound'

/-- Merging executables joins their maps into the unified maps, each map at the offsets that both
have, and changes nothing else. Which executables are merged decides, in any order, in any groups
and however often each of them is. -/
theorem mergeAll_join (h : (mergeAll r es).result = .ok ()) :
    (∀ k, Option.Rel
      (fun s s' => s' = { s with unified := s'.unified } ∧
        Option.Rel (Joins (mapsOf es k)) s.unified s'.unified)
      (r.find? k) ((mergeAll r es).state.find? k)) ∧
    (∀ k, (∀ e ∈ es, e.maps[k]? = none) → (mergeAll r es).state.find? k = r.find? k) ∧
    ∀ groups : List (List Executable), (∀ e, e ∈ groups.flatten ↔ e ∈ es) →
      (forEach mergeAll r groups).result = .ok () ∧
        (forEach mergeAll r groups).state.symbols = (mergeAll r es).state.symbols := by
  refine ⟨fun k => ?_, fun k hk => ?_, fun groups hgroups => ?_⟩
  · rw [find?_mergeAll h]
    cases r.find? k with
    | none => exact .none
    | some s => exact .some ⟨rfl, s.rel_joining _⟩
  · have hnone : mapsOf es k = [] := List.filterMap_eq_nil_iff.2 hk
    rw [find?_mergeAll h, hnone]
    simp [Symbol.joining]
  · rw [mergeAll_groups]
    exact mergeAll_of_mem_iff h hgroups

def fourBytes : Registry := ((Registry.insert {} "f").unifiedMap "f" 4).state

def blankBytes : CoverageMap where
  low := 0
  flags := .replicate 4 .empty
  nonempty := by decide
  fits := by decide

def fewerBytes : Executable where
  id := 0
  file := "a.exe"
  maps := (∅ : Std.ExtTreeMap String CoverageMap).insert "f"
    { low := 0x100
      flags := #[.start ||| .executed, .executed, .start]
      nonempty := by decide
      fits := by decide }

def moreBytes : Executable where
  id := 1
  file := "b.exe"
  maps := (∅ : Std.ExtTreeMap String CoverageMap).insert "f"
    { low := 0x200
      flags := #[.start, .empty, .start ||| .executed, .executed, .start ||| .executed, .executed]
      nonempty := by decide
      fits := by decide }

theorem mergeAll_join_prefix :
    (mergeAll fourBytes [fewerBytes, moreBytes]).result = .ok () ∧
      (∃ s ∈ (mergeAll fourBytes [fewerBytes, moreBytes]).state.find? "f", ∃ u ∈ s.unified,
        u.size = 4 ∧ u.flagsAt (u.low + UInt32.ofNat 2) = .start ||| .executed) ∧
      (forEach mergeAll fourBytes [[moreBytes], [fewerBytes, moreBytes]]).state.symbols =
        (mergeAll fourBytes [fewerBytes, moreBytes]).state.symbols := by
  have hok : (mergeAll fourBytes [fewerBytes, moreBytes]).result = .ok () := by
    decide +kernel
  obtain ⟨hjoin, _, hgroups⟩ := mergeAll_join hok
  refine ⟨hok, ?_, (hgroups _ (by simp [or_comm])).2⟩
  have hbefore : fourBytes.find? "f" = some { name := "f", unified := some blankBytes } := by
    decide +kernel
  have hflags : (blankBytes.flagsAt (blankBytes.low + UInt32.ofNat 2)).union
      (joined (mapsOf [fewerBytes, moreBytes] "f") 2) = .start ||| .executed := by
    decide +kernel
  have hf := hjoin "f"
  rw [hbefore] at hf
  generalize (mergeAll fourBytes [fewerBytes, moreBytes]).state.find? "f" = found at hf ⊢
  obtain ⟨_, hunified⟩ | _ := hf
  rename_i s _
  refine ⟨s, rfl, ?_⟩
  generalize s.unified = unified at hunified ⊢
  obtain hu | _ := hunified
  rename_i u
  exact ⟨u, rfl, hu.size, (hu.flags 2 (by decide)).trans hflags⟩

end Pipeline

end TraceCoverage

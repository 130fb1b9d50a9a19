import TraceCoverage.Proofs.TreeMap
import TraceCoverage.Session.Pipeline
import Mathlib.Tactic.Common

/-!
# The registry, symbol by symbol

Adopting and merging change the symbol of one name, and analyzing and counting change each symbol
on its own. What a run does to the registry is therefore said for one name at a time.
-/

namespace TraceCoverage

abbrev SymbolMap := Std.ExtTreeMap String Symbol

/-- The symbol after an executable handed its own over. The first one counts. -/
def Symbol.adopting (source : Nat) (p : ResolvedSymbol) (s : Symbol) : Symbol :=
  if s.isResolved then s
  else
    { s with
      base := p.base
      lines := p.lines
      source := some source
      unified := s.unified.or (CoverageMap.ofSize p.size).toOption }

def Symbol.merging (m : CoverageMap) (s : Symbol) : Symbol :=
  { s with unified := s.unified.map (·.merge m) }

/-- Every resolved symbol has a unified map. -/
def SymbolMap.Settled (t : SymbolMap) : Prop :=
  ∀ (k : String) (s : Symbol), t[k]? = some s → s.isResolved = true → s.unified.isSome = true

namespace SymbolMap

variable {k : String}

theorem getElem?_foldl {α : Type} {g : SymbolMap → α → SymbolMap} {h : α → Symbol → Symbol} {l : List α}
    (hg : ∀ t, ∀ a ∈ l, (g t a)[k]? = t[k]?.map (h a)) (t : SymbolMap) :
    (l.foldl g t)[k]? = t[k]?.map fun s => l.foldl (fun s a => h a s) s := by
  induction l generalizing t with
  | nil => simp
  | cons a rest ih =>
    rw [List.foldl_cons, ih fun t a' ha' => hg t a' (List.mem_cons_of_mem _ ha'),
      hg t a List.mem_cons_self, Option.map_map]
    rfl

theorem getElem?_foldl_modify {α : Type} (name : α → String) (h : α → Symbol → Symbol)
    (t : SymbolMap) {l : List α} (hl : (l.map name).Nodup) :
    (l.foldl (fun t a => t.modify (name a) (h a)) t)[k]? =
      t[k]?.map fun s => ((l.find? (name · == k)).map (h · s)).getD s := by
  induction l generalizing t with
  | nil => simp
  | cons a rest ih =>
    rw [List.map_cons, List.nodup_cons] at hl
    rw [List.foldl_cons, ih _ hl.2, TreeMap.getElem?_modify_eq, Option.map_map, List.find?_cons]
    congr 1
    funext s
    by_cases ha : name a = k
    · have hnone : rest.find? (name · == k) = none := by
        rw [List.find?_eq_none]
        intro b hb hbk
        exact hl.1 (List.mem_map.2 ⟨b, hb, by simpa [ha] using hbk⟩)
      simp [ha, hnone]
    · have hne : (name a == k) = false := by simpa using ha
      simp [ha, hne]

end SymbolMap

def Symbol.digest (s : Symbol) : Bool × Statistics := (s.isResolved, s.stats)

theorem Registry.totals_congr {r r' : Registry}
    (h : ∀ k : String, r.symbols[k]?.map Symbol.digest = r'.symbols[k]?.map Symbol.digest) :
    r.totals = r'.totals := by
  have hmap : (r.symbols.map fun _ s => s.digest) = r'.symbols.map fun _ s => s.digest := by
    apply Std.ExtTreeMap.ext_getElem?
    intro k
    rw [Std.ExtTreeMap.getElem?_map, Std.ExtTreeMap.getElem?_map]
    exact h k
  have hlist : r.toList.map Symbol.digest = r'.toList.map Symbol.digest := by
    have hvalues : ∀ t : SymbolMap, t.values.map Symbol.digest =
        (t.map fun _ s => s.digest).toList.map (·.2) := by
      intro t
      rw [TreeMap.values_eq, Std.ExtTreeMap.toList_map, List.map_map, List.map_map]
      rfl
    rw [toList, toList, hvalues, hvalues, hmap]
  have hofSymbols : ∀ symbols : List Symbol, Totals.ofSymbols symbols =
      { symbols := (symbols.map Symbol.digest).length
        unresolvedSymbols := (symbols.map Symbol.digest).countP (!·.1)
        stats := ((symbols.map Symbol.digest).map (·.2)).foldl (· + ·) {} } := by
    intro symbols
    rw [Totals.ofSymbols, List.length_map, List.countP_map, List.map_map]
    rfl
  rw [totals, totals, hofSymbols, hofSymbols, hlist]

/-! ## Adopting -/

section

variable {r : Registry} {p : ResolvedSymbol} {s : Symbol} {m : CoverageMap} (source : Nat)

theorem adoptInto_eq (hs : r.symbols[p.name]? = some s)
    (hres : s.isResolved = true → s.unified.isSome = true)
    (hm : s.unified.or (CoverageMap.ofSize p.size).toOption = some m) :
    p.adoptInto r source =
      { state := { r with symbols := r.symbols.modify p.name (·.adopting source p) }
        result := .ok (!s.isResolved) } := by
  unfold ResolvedSymbol.adoptInto Registry.unifiedMap
  cases hu : s.unified with
  | some u =>
    have hor : s.unified.or (CoverageMap.ofSize p.size).toOption = s.unified := by
      rw [hu]
      rfl
    simp only [hs, hu, Registry.adopt]
    by_cases hr : s.isResolved
    · rw [TreeMap.modify_eq_self hs (by rw [Symbol.adopting, if_pos hr]), if_pos hr, hr]
      rfl
    · rw [← TreeMap.insert_eq_modify hs, Symbol.adopting, if_neg hr, if_neg hr, hor]
      simp [hr, hu]
  | none =>
    -- A symbol without a map is unresolved, so it takes the blank map and the place at once.
    have hr : s.isResolved = false := by
      rw [Bool.eq_false_iff]
      intro hr
      simp [hu, hr] at hres
    rw [hu, Option.none_or] at hm
    cases hblank : CoverageMap.ofSize p.size with
    | error cause => simp [hblank, Except.toOption] at hm
    | ok u =>
      have hr' : ({ s with unified := some u } : Symbol).isResolved = false := hr
      simp only [hs, hu, Registry.adopt, Std.ExtTreeMap.getElem?_insert_self, hr', hr]
      have hadopting : s.adopting source p =
          { s with base := p.base, lines := p.lines, source := some source, unified := some u } := by
        rw [Symbol.adopting, if_neg (by simp [hr]), hu, hblank]
        rfl
      rw [← TreeMap.insert_eq_modify hs, TreeMap.insert_insert, hadopting]
      rfl

theorem adoptInto_of_ok (hr : SymbolMap.Settled r.symbols) {b : Bool}
    (h : (p.adoptInto r source).result = .ok b) :
    (p.adoptInto r source).state.symbols = r.symbols.modify p.name (·.adopting source p) ∧
      SymbolMap.Settled (r.symbols.modify p.name (·.adopting source p)) := by
  cases hs : r.symbols[p.name]? with
  | none => simp [ResolvedSymbol.adoptInto, Registry.unifiedMap, hs] at h
  | some s =>
    have hres := hr _ _ hs
    cases hm : s.unified.or (CoverageMap.ofSize p.size).toOption with
    | none =>
      rw [Option.or_eq_none_iff] at hm
      obtain ⟨hu, hblank⟩ := hm
      cases hsize : CoverageMap.ofSize p.size with
      | ok u => simp [hsize, Except.toOption] at hblank
      | error cause => simp [ResolvedSymbol.adoptInto, Registry.unifiedMap, hs, hu, hsize] at h
    | some m =>
      refine ⟨by rw [adoptInto_eq source hs hres hm], fun k s' hs' hres' => ?_⟩
      rw [TreeMap.getElem?_modify_eq, Option.map_eq_some_iff] at hs'
      obtain ⟨s₀, hs₀, rfl⟩ := hs'
      by_cases heq : p.name = k
      · rw [← heq, hs, Option.some.injEq] at hs₀
        subst hs₀
        rw [if_pos heq, Symbol.adopting]
        split
        next hr => exact hres hr
        next => simp [hm]
      · rw [if_neg heq] at hres' ⊢
        exact hr _ _ hs₀ hres'

theorem ofSize_ok {size : UInt32} (h : size ≠ 0) : ∃ m, CoverageMap.ofSize size = .ok m := by
  rw [CoverageMap.ofSize, if_neg h]
  exact ⟨_, dif_pos (UInt32.le_iff_toNat_le.2 (Nat.zero_le _))⟩

theorem adoptInto_ok (hr : SymbolMap.Settled r.symbols) (hp : r.contains p.name) (hsize : p.size ≠ 0) :
    ∃ b, (p.adoptInto r source).result = .ok b := by
  obtain ⟨m, hblank⟩ := ofSize_ok hsize
  obtain ⟨s, hs⟩ := TreeMap.exists_of_contains hp
  obtain ⟨m', hm'⟩ : ∃ m', s.unified.or (CoverageMap.ofSize p.size).toOption = some m' := by
    rw [hblank]
    cases s.unified with
    | none => exact ⟨m, rfl⟩
    | some u => exact ⟨u, rfl⟩
  exact ⟨_, by rw [adoptInto_eq source hs (hr _ _ hs) hm']⟩

theorem contains_adoptInto (hr : SymbolMap.Settled r.symbols) {b : Bool}
    (h : (p.adoptInto r source).result = .ok b) (k : String) :
    (p.adoptInto r source).state.contains k = r.contains k := by
  rw [Registry.contains, Registry.contains, Std.ExtTreeMap.contains_eq_isSome_getElem?,
    Std.ExtTreeMap.contains_eq_isSome_getElem?, (adoptInto_of_ok source hr h).1,
    TreeMap.getElem?_modify_eq, Option.isSome_map]

end

/-! ## Merging -/

def Registry.HasMap (r : Registry) (name : String) : Prop :=
  ∃ s, r.symbols[name]? = some s ∧ s.unified.isSome = true

theorem Symbol.merging_of_none {s : Symbol} (hs : s.unified = none) (o : CoverageMap) :
    s.merging o = s := by
  obtain ⟨_, _, _, _, _, _, _, unified⟩ := s
  obtain rfl : unified = none := hs
  rfl

theorem Registry.find?_merge (r : Registry) (k name : String) (m : CoverageMap) :
    (r.merge name m).state.find? k =
      (r.find? k).map fun s => if name = k then s.merging m else s := by
  unfold Registry.merge Registry.find?
  by_cases hname : name = k
  · subst hname
    cases hs : r.symbols[name]? with
    | none => exact hs
    | some s =>
      cases hm : s.unified with
      | none => simp [hm, hs, Symbol.merging_of_none hm]
      | some unified => simp [hm, Symbol.merging]
  · cases r.symbols[name]? with
    | none => simp [hname]
    | some s =>
      cases hm : s.unified with
      | none => simp [hm, hname]
      | some unified =>
        simp only [hm, TreeMap.getElem?_insert_eq]
        simp [hname]

section

variable {r : Registry} {name : String} {m : CoverageMap}

theorem merge_of_ok (h : (r.merge name m).result = .ok ()) :
    (r.merge name m).state.symbols = r.symbols.modify name (·.merging m) := by
  unfold Registry.merge at h ⊢
  cases hs : r.symbols[name]? with
  | none => simp [hs] at h
  | some s =>
    cases hu : s.unified with
    | none => simp [hs, hu] at h
    | some u =>
      simp only [hu]
      rw [← TreeMap.insert_eq_modify hs, Symbol.merging, hu]
      rfl

theorem merge_ok (h : r.HasMap name) : (r.merge name m).result = .ok () := by
  obtain ⟨s, hs, hu⟩ := h
  obtain ⟨u, hu⟩ := Option.isSome_iff_exists.1 hu
  simp [Registry.merge, hs, hu]

theorem hasMap_of_merge_ok (h : (r.merge name m).result = .ok ()) : r.HasMap name := by
  unfold Registry.merge at h
  cases hs : r.symbols[name]? with
  | none => simp [hs] at h
  | some s =>
    cases hu : s.unified with
    | none => simp [hs, hu] at h
    | some u => exact ⟨s, hs, by rw [hu, Option.isSome_some]⟩

theorem hasMap_iff_of_map {r' : Registry} {k : String} {f : Symbol → Symbol}
    (h : r'.symbols[k]? = r.symbols[k]?.map f)
    (hf : ∀ s, (f s).unified.isSome = s.unified.isSome) : r'.HasMap k ↔ r.HasMap k := by
  unfold Registry.HasMap
  rw [h]
  constructor
  · rintro ⟨s', hs', hu⟩
    obtain ⟨s, hs, rfl⟩ := Option.map_eq_some_iff.1 hs'
    exact ⟨s, hs, by rwa [← hf]⟩
  · rintro ⟨s, hs, hu⟩
    exact ⟨f s, by rw [hs, Option.map_some], by rwa [hf]⟩

theorem Symbol.isSome_unified_merging (s : Symbol) (m : CoverageMap) :
    (s.merging m).unified.isSome = s.unified.isSome := by
  rw [Symbol.merging, Option.isSome_map]

theorem Registry.hasMap_merge_iff {k : String} :
    (r.merge name m).state.HasMap k ↔ r.HasMap k := by
  refine hasMap_iff_of_map (find?_merge r k name m) fun s => ?_
  split
  next => exact s.isSome_unified_merging m
  next => rfl

theorem foldl_mergeStep_error {o : Outcome Registry CoverageError Nat} {cause : CoverageError}
    (ho : o.result = .error cause) (entries : List (String × CoverageMap)) :
    entries.foldl Executable.mergeStep o = o := by
  induction entries with
  | nil => rfl
  | cons entry rest ih =>
    have hstep : Executable.mergeStep o entry = o := by
      simp [Executable.mergeStep, ho]
    rw [List.foldl_cons, hstep, ih]

theorem mergeStep_of_foldl_ok {o : Outcome Registry CoverageError Nat} {n : Nat}
    {entry : String × CoverageMap} {rest : List (String × CoverageMap)}
    (h : (rest.foldl Executable.mergeStep (Executable.mergeStep o entry)).result = .ok n) :
    (o.state.merge entry.1 entry.2).result = .ok () ∧
      (Executable.mergeStep o entry).state = (o.state.merge entry.1 entry.2).state := by
  have hnone : ∀ cause, (Executable.mergeStep o entry).result ≠ .error cause := by
    intro cause hstep
    rw [foldl_mergeStep_error hstep, hstep] at h
    cases h
  cases ho : o.result with
  | error cause => exact absurd (by simp [Executable.mergeStep, ho]) (hnone cause)
  | ok k =>
    cases hm : (o.state.merge entry.1 entry.2).result with
    | ok => exact ⟨rfl, by simp [Executable.mergeStep, ho]⟩
    | error cause => exact absurd (by simp [Executable.mergeStep, ho, hm, Except.map]) (hnone cause)

/-- Merging entries that all succeed changes their symbols one after the other. -/
theorem foldl_mergeStep_of_ok {o : Outcome Registry CoverageError Nat} {n : Nat}
    {entries : List (String × CoverageMap)}
    (h : (entries.foldl Executable.mergeStep o).result = .ok n) :
    (entries.foldl Executable.mergeStep o).state.symbols =
      entries.foldl (fun t entry => t.modify entry.1 (·.merging entry.2)) o.state.symbols := by
  induction entries generalizing o with
  | nil => rfl
  | cons entry rest ih =>
    rw [List.foldl_cons] at h ⊢
    obtain ⟨hmerge, hstate⟩ := mergeStep_of_foldl_ok h
    rw [ih h, List.foldl_cons, hstate, merge_of_ok hmerge]

theorem mergeInto_of_ok {e : Executable} {n : Nat} (h : (e.mergeInto r).result = .ok n)
    (k : String) :
    (e.mergeInto r).state.symbols[k]? =
      r.symbols[k]?.map fun s => (e.maps[k]?.map fun m => s.merging m).getD s := by
  unfold Executable.mergeInto at h ⊢
  rw [foldl_mergeStep_of_ok h, SymbolMap.getElem?_foldl_modify Prod.fst
    (fun entry s => s.merging entry.2) _ (TreeMap.nodup_keys_toList _), TreeMap.find?_toList]
  simp only [Option.map_map]
  rfl

theorem mergeStep_of_hasMap {entry : String × CoverageMap} (h : r.HasMap entry.1) (n : Nat)
    (warnings : List Warning) :
    Executable.mergeStep { state := r, result := .ok n, warnings } entry =
      { state := (r.merge entry.1 entry.2).state
        result := .ok (n + 1)
        warnings := warnings ++ (r.merge entry.1 entry.2).warnings } := by
  simp [Executable.mergeStep, merge_ok (m := entry.2) h, Except.map]

theorem foldl_mergeStep_ok {o : Outcome Registry CoverageError Nat} {n : Nat}
    (ho : o.result = .ok n) {entries : List (String × CoverageMap)}
    (h : ∀ entry ∈ entries, o.state.HasMap entry.1) :
    ∃ n', (entries.foldl Executable.mergeStep o).result = .ok n' := by
  induction entries generalizing o n with
  | nil => exact ⟨n, ho⟩
  | cons entry rest ih =>
    rw [List.forall_mem_cons] at h
    obtain ⟨state, _, warnings⟩ := o
    obtain rfl := ho
    rw [List.foldl_cons, mergeStep_of_hasMap h.1]
    exact ih rfl fun entry' hmem => Registry.hasMap_merge_iff.2 (h.2 entry' hmem)

theorem mergeInto_ok {e : Executable} (h : ∀ k m, e.maps[k]? = some m → r.HasMap k) :
    ∃ n, (e.mergeInto r).result = .ok n :=
  foldl_mergeStep_ok rfl fun entry hmem =>
    h entry.1 entry.2 (Std.ExtTreeMap.mem_toList_iff_getElem?_eq_some.1 hmem)

theorem hasMap_mergeInto_iff {e : Executable} {n : Nat} (h : (e.mergeInto r).result = .ok n)
    {k : String} : (e.mergeInto r).state.HasMap k ↔ r.HasMap k := by
  refine hasMap_iff_of_map (mergeInto_of_ok h k) fun s => ?_
  cases e.maps[k]? with
  | none => rfl
  | some m => exact s.isSome_unified_merging m

end

/-! ## All executables -/

namespace Pipeline

section

variable {σ ε α β τ : Type} {step : σ → α → Outcome σ ε β}

theorem forEach_of_ok {v : σ → τ} {g : τ → α → τ} {I : τ → Prop}
    (hstep : ∀ s a b, I (v s) → (step s a).result = .ok b →
      v (step s a).state = g (v s) a ∧ I (g (v s) a))
    {l : List α} {s : σ} (hs : I (v s)) (h : (forEach step s l).result = .ok ()) :
    v (forEach step s l).state = l.foldl g (v s) ∧ I (l.foldl g (v s)) := by
  induction l generalizing s with
  | nil => exact ⟨rfl, hs⟩
  | cons a rest ih =>
    unfold forEach at h ⊢
    cases hr : (step s a).result with
    | error cause => simp [hr] at h
    | ok b =>
      obtain ⟨hv, hI⟩ := hstep s a b hs hr
      simp only [hr] at h ⊢
      rw [List.foldl_cons, ← hv]
      exact ih (hv ▸ hI) h

theorem forEach_ok {I : σ → Prop} {l : List α}
    (hstep : ∀ s, ∀ a ∈ l, I s → ∃ b, (step s a).result = .ok b ∧ I (step s a).state)
    {s : σ} (hs : I s) : (forEach step s l).result = .ok () ∧ I (forEach step s l).state := by
  induction l generalizing s with
  | nil => exact ⟨rfl, hs⟩
  | cons a rest ih =>
    obtain ⟨b, hb, hI⟩ := hstep s a List.mem_cons_self hs
    unfold forEach
    simp only [hb]
    exact ih (fun s a' ha' => hstep s a' (List.mem_cons_of_mem _ ha')) hI

end

theorem adoptOne_of_ok {r : Registry} {e : ReadExecutable} (hr : SymbolMap.Settled r.symbols)
    (h : (adoptOne r e).result = .ok ()) :
    (adoptOne r e).state.symbols =
        e.resolved.foldl (fun t p => t.modify p.name (·.adopting e.executable.id p)) r.symbols ∧
      SymbolMap.Settled (e.resolved.foldl (fun t p => t.modify p.name (·.adopting e.executable.id p))
        r.symbols) :=
  forEach_of_ok (v := Registry.symbols) (I := SymbolMap.Settled)
    (fun _ _ _ hs hok => adoptInto_of_ok _ hs hok) hr h

theorem symbols_adoptAll {r : Registry} {es : List ReadExecutable}
    (hr : SymbolMap.Settled r.symbols) (h : (adoptAll r es).result = .ok ()) :
    (adoptAll r es).state.symbols =
        es.foldl (fun t e =>
          e.resolved.foldl (fun t p => t.modify p.name (·.adopting e.executable.id p)) t) r.symbols ∧
      SymbolMap.Settled (adoptAll r es).state.symbols := by
  have hall : (adoptAll r es).state.symbols =
        es.foldl (fun t e =>
          e.resolved.foldl (fun t p => t.modify p.name (·.adopting e.executable.id p)) t) r.symbols ∧
      SymbolMap.Settled (es.foldl (fun t e =>
        e.resolved.foldl (fun t p => t.modify p.name (·.adopting e.executable.id p)) t)
        r.symbols) :=
    forEach_of_ok (v := Registry.symbols) (I := SymbolMap.Settled)
      (fun _ _ _ hs hok => adoptOne_of_ok hs hok) hr h
  exact ⟨hall.1, hall.1 ▸ hall.2⟩

theorem adoptAll_ok {r : Registry} {es : List ReadExecutable} (hr : SymbolMap.Settled r.symbols)
    (h : ∀ e ∈ es, ∀ p ∈ e.resolved, r.contains p.name = true ∧ p.size ≠ 0) :
    (adoptAll r es).result = .ok () := by
  let Kept (r' : Registry) : Prop :=
    SymbolMap.Settled r'.symbols ∧ ∀ k, r'.contains k = r.contains k
  have hone : ∀ r', ∀ e ∈ es, Kept r' → (adoptOne r' e).result = .ok () ∧
      Kept (adoptOne r' e).state := by
    intro r' e he
    apply forEach_ok
    rintro r' p hp ⟨hsettled, hnames⟩
    obtain ⟨hwanted, hsize⟩ := h e he p hp
    obtain ⟨b, hb⟩ := adoptInto_ok e.executable.id hsettled ((hnames _).trans hwanted) hsize
    have hstep := adoptInto_of_ok e.executable.id hsettled hb
    exact ⟨b, hb, hstep.1 ▸ hstep.2,
      fun k => (contains_adoptInto e.executable.id hsettled hb k).trans (hnames k)⟩
  exact (forEach_ok (fun r' e he hr' => ⟨(), hone r' e he hr'⟩)
    (⟨hr, fun _ => rfl⟩ : Kept r)).1

theorem foldl_option_map {α : Type} (g : Symbol → α → Symbol) (l : List α) (s? : Option Symbol) :
    l.foldl (fun s? a => s?.map fun s => g s a) s? = s?.map fun s => l.foldl g s := by
  induction l generalizing s? with
  | nil => simp
  | cons a rest ih =>
    rw [List.foldl_cons, ih, Option.map_map]
    rfl

theorem getElem?_mergeAll {r : Registry} {es : List Executable}
    (h : (mergeAll r es).result = .ok ()) (k : String) :
    (mergeAll r es).state.symbols[k]? = r.symbols[k]?.map fun s =>
      es.foldl (fun s e => (e.maps[k]?.map fun m => s.merging m).getD s) s := by
  have hfold : (mergeAll r es).state.symbols[k]? =
      es.foldl (fun s? e => s?.map fun s => (e.maps[k]?.map fun m => s.merging m).getD s)
        r.symbols[k]? :=
    (forEach_of_ok (v := fun r => r.symbols[k]?) (I := fun _ => True)
      (fun _ _ _ _ hok => ⟨mergeInto_of_ok hok k, trivial⟩) trivial h).1
  rw [hfold, foldl_option_map]

theorem mergeAll_ok {r : Registry} {es : List Executable}
    (h : ∀ e ∈ es, ∀ k m, e.maps[k]? = some m → r.HasMap k) : (mergeAll r es).result = .ok () := by
  refine (forEach_ok (I := fun r' : Registry => ∀ k, r.HasMap k → r'.HasMap k) ?_ ?_).1
  · intro r' e he hr'
    obtain ⟨n, hn⟩ := mergeInto_ok fun k m hm => hr' k (h e he k m hm)
    exact ⟨n, hn, fun k hk => (hasMap_mergeInto_iff hn).2 (hr' k hk)⟩
  · exact fun _ hk => hk

end Pipeline

end TraceCoverage

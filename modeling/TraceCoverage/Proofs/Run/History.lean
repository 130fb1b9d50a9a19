import TraceCoverage.Proofs.Coverage.Starts
import TraceCoverage.Proofs.Run.Reanalysis

/-!
# What a registry keeps

A registry is changed by its operations only, whether they succeed or not. None of them takes a
symbol, its lines, its unified map or a flag in that map away. What an operation can do to a symbol
is said once, and all that is kept follows from it.
-/

namespace TraceCoverage

open CoverageMap

/-! ## Operations -/

namespace Registry

def markUnified (r : Registry) (name : String) (size : UInt32) (marks : List Mark) : Registry :=
  let made := r.unifiedMap name size
  match made.result with
  | .error _ => made.state
  | .ok m => made.state.update name fun s => { s with unified := some (marks.foldl Mark.apply m) }

inductive Operation where
  | insert (name : String)
  | load (stream : TextStream)
  | adopt (name : String) (base : Address) (lines : List CodeLine) (source : Nat)
  | mark (name : String) (size : UInt32) (marks : List Mark)
  | merge (name : String) (m : CoverageMap)
  | analyze
  | count

/-- The registry after an operation, whether it succeeds or not. -/
def Operation.apply (r : Registry) : Operation → Registry
  | insert name => r.insert name
  | load stream => (r.load stream).state
  | adopt name base lines source => (r.adopt name base lines source).state
  | mark name size marks => r.markUnified name size marks
  | merge name m => (r.merge name m).state
  | analyze => r.analyze
  | count => r.count.state

def perform (r : Registry) (operations : List Operation) : Registry :=
  operations.foldl Operation.apply r

end Registry

/-! ## What is kept -/

structure CoverageMap.GrowsTo (u u' : CoverageMap) : Prop where
  low : u'.low = u.low
  high : u'.high = u.high
  size : u'.size = u.size
  flags : ∀ i f, (u.byte i).meets f = true → (u'.byte i).meets f = true

/-- The symbol keeps its lines once an executable has it, and its unified map once it has one. -/
structure Symbol.GrowsTo (s s' : Symbol) : Prop where
  name : s'.name = s.name
  adopted : s.isResolved = true → s'.base = s.base ∧ s'.lines = s.lines ∧ s'.source = s.source
  unified : ∀ u ∈ s.unified, ∃ u' ∈ s'.unified, u.GrowsTo u'

def Registry.GrowsTo (r r' : Registry) : Prop :=
  ∀ k s, r.find? k = some s → ∃ s', r'.find? k = some s' ∧ s.GrowsTo s'

theorem CoverageMap.growsTo_mark (u : CoverageMap) (g : Nat → Flags) : u.GrowsTo (u.mark g) := by
  refine ⟨low_mark g, high_mark g, size_mark g, fun i f hf => ?_⟩
  rcases Nat.lt_or_ge i u.size with hi | hi
  · rw [byte_mark _ hi, Flags.meets_union, hf, Bool.true_or]
  · rw [byte_of_size_le hi, Flags.empty_meets] at hf
    cases hf

theorem CoverageMap.GrowsTo.refl (u : CoverageMap) : u.GrowsTo u := by
  simpa using u.growsTo_mark fun _ => Flags.empty

theorem CoverageMap.GrowsTo.trans {u u' u'' : CoverageMap} (h : u.GrowsTo u')
    (h' : u'.GrowsTo u'') : u.GrowsTo u'' where
  low := h'.low.trans h.low
  high := h'.high.trans h.high
  size := h'.size.trans h.size
  flags i f hf := h'.flags i f (h.flags i f hf)

theorem Symbol.GrowsTo.trans {s s' s'' : Symbol} (h : s.GrowsTo s') (h' : s'.GrowsTo s'') :
    s.GrowsTo s'' := by
  refine ⟨h'.name.trans h.name, fun hres => ?_, fun u hu => ?_⟩
  · obtain ⟨hbase, hlines, hsource⟩ := h.adopted hres
    have hres' : s'.isResolved = true := by rwa [isResolved, hsource]
    obtain ⟨hbase', hlines', hsource'⟩ := h'.adopted hres'
    exact ⟨hbase'.trans hbase, hlines'.trans hlines, hsource'.trans hsource⟩
  · obtain ⟨u', hu', hgrows⟩ := h.unified u hu
    obtain ⟨u'', hu'', hgrows'⟩ := h'.unified u' hu'
    exact ⟨u'', hu'', hgrows.trans hgrows'⟩

/-! ## What an operation does to a symbol -/

/-- An operation can change a symbol in these ways. -/
inductive Symbol.Changes : Symbol → Symbol → Prop where
  | keep (s : Symbol) : Changes s s
  | adopt {s : Symbol} (hs : s.isResolved = false) (base : Address) (lines : List CodeLine)
    (source : Nat) : Changes s { s with base, lines, source := some source }
  | make {s : Symbol} (hs : s.unified = none) {size : UInt32} {blank : CoverageMap}
    (hblank : ofSize size = .ok blank) (g : Nat → Flags) :
    Changes s { s with unified := some (blank.mark g) }
  | mark {s : Symbol} {u : CoverageMap} (hs : s.unified = some u) (g : Nat → Flags) :
    Changes s { s with unified := some (u.mark g) }
  | analyze (s : Symbol) : Changes s s.analyze
  | count (s : Symbol) (stats : Statistics) : Changes s { s with stats }

namespace Symbol

variable {s s' : Symbol}

theorem exists_mark_analyze {u : CoverageMap} (hu : s.unified = some u) :
    ∃ g, s.analyze.unified = some (u.mark g) := by
  obtain ⟨folded, hfolded⟩ := folds_fillPadding (u.markLines s.base s.lines).1
  rw [analyze_of_unified hu]
  dsimp only
  rw [hfolded, markLines, foldl_markLine_eq_mark, mark_mark]
  exact ⟨_, rfl⟩

theorem analyze_frame (s : Symbol) :
    s.analyze.name = s.name ∧ s.analyze.base = s.base ∧ s.analyze.lines = s.lines ∧
      s.analyze.source = s.source := by
  unfold analyze
  cases s.unified <;> exact ⟨rfl, rfl, rfl, rfl⟩

theorem Changes.growsTo (h : s.Changes s') : s.GrowsTo s' := by
  have hkept : ∀ u ∈ s.unified, ∃ u' ∈ s.unified, u.GrowsTo u' := fun u hu => ⟨u, hu, .refl u⟩
  cases h with
  | keep => exact ⟨rfl, fun _ => ⟨rfl, rfl, rfl⟩, hkept⟩
  | adopt hs =>
    refine ⟨rfl, fun hres => ?_, hkept⟩
    rw [hs] at hres
    cases hres
  | make hs =>
    refine ⟨rfl, fun _ => ⟨rfl, rfl, rfl⟩, fun u hu => ?_⟩
    rw [hs] at hu
    cases hu
  | @mark u hs g =>
    refine ⟨rfl, fun _ => ⟨rfl, rfl, rfl⟩, fun u' hu => ⟨_, rfl, ?_⟩⟩
    obtain rfl := Option.some.inj (hu.symm.trans hs)
    exact u'.growsTo_mark g
  | analyze =>
    obtain ⟨hname, hbase, hlines, hsource⟩ := s.analyze_frame
    refine ⟨hname, fun _ => ⟨hbase, hlines, hsource⟩, fun u hu => ?_⟩
    obtain ⟨g, hg⟩ := exists_mark_analyze hu
    exact ⟨_, hg, u.growsTo_mark g⟩
  | count => exact ⟨rfl, fun _ => ⟨rfl, rfl, rfl⟩, hkept⟩

end Symbol

def Symbol.Sized (s : Symbol) : Prop := ∀ u ∈ s.unified, u.size < 0x100000000

theorem Symbol.Changes.sized {s s' : Symbol} (h : s.Changes s') (hs : s.Sized) : s'.Sized := by
  cases h with
  | keep | adopt | count => exact hs
  | @make _ size blank hblank g =>
    rintro _ ⟨⟩
    have hsize : blank.size = size.toNat := (unifies_foldl_merge [] hblank).size
    rw [size_mark, hsize]
    exact size.toNat_lt
  | mark hu g =>
    rintro _ ⟨⟩
    rw [size_mark]
    exact hs _ hu
  | analyze =>
    intro u hu
    cases hunified : s.unified with
    | none =>
      rw [analyze_of_none hunified, hunified] at hu
      cases hu
    | some m =>
      obtain ⟨g, hg⟩ := exists_mark_analyze hunified
      obtain rfl := Option.some.inj (hg.symm.trans hu)
      rw [size_mark]
      exact hs m hunified

namespace Registry

variable {r r' : Registry} {k name : String} {s s' : Symbol}

structure Changes (r r' : Registry) : Prop where
  stays : ∀ k, (r.find? k).isSome = true → (r'.find? k).isSome = true
  found : ∀ k, ∀ s' ∈ r'.find? k, ((r.find? k).getD { name := k }).Changes s'

theorem Changes.growsTo (h : r.Changes r') : r.GrowsTo r' := by
  intro k s hs
  obtain ⟨s', hs'⟩ := Option.isSome_iff_exists.1 (h.stays k (by rw [hs, Option.isSome_some]))
  have hchange := h.found k s' hs'
  rw [hs, Option.getD_some] at hchange
  exact ⟨s', hs', hchange.growsTo⟩

/-! ## Each operation -/

theorem changes_of_map {f : Symbol → Symbol} (hf : ∀ s : Symbol, s.Changes (f s))
    (h : ∀ k, r'.find? k = (r.find? k).map f) : r.Changes r' := by
  constructor
  · intro k hk
    rwa [h, Option.isSome_map]
  · intro k s' hs'
    rw [h, Option.mem_def, Option.map_eq_some_iff] at hs'
    obtain ⟨s, hs, rfl⟩ := hs'
    rw [hs]
    exact hf s

theorem changes_refl (r : Registry) : r.Changes r :=
  changes_of_map (f := id) .keep (by simp)

theorem changes_put (hs : r.find? name = some s) (h : s.Changes s') (analyzed : Bool) :
    r.Changes { symbols := r.symbols.insert name s', analyzed } := by
  have hput : ∀ k, Registry.find? { symbols := r.symbols.insert name s', analyzed } k =
      if name = k then some s' else r.find? k :=
    fun k => TreeMap.getElem?_insert_eq r.symbols name k s'
  constructor
  · intro k hk
    rw [hput]
    split
    next => rfl
    next => exact hk
  · intro k found hfound
    rw [hput] at hfound
    split at hfound
    next hname =>
      obtain rfl := Option.some.inj hfound
      rwa [← hname, hs]
    next =>
      rw [Option.mem_def.1 hfound]
      exact .keep found

theorem changes_foldl_insert (r : Registry) (names : List String) :
    r.Changes (names.foldl insert r) := by
  have hnames : ∀ k, (names.foldl insert r).find? k =
      (r.find? k).or (if k ∈ names then some { name := k } else none) :=
    Pipeline.getElem?_foldl_insert names r
  constructor
  · intro k hk
    rw [hnames, Option.isSome_or, hk, Bool.true_or]
  · intro k s' hs'
    rw [hnames, Option.mem_def, Option.or_eq_some_iff] at hs'
    rcases hs' with hs | ⟨hs, hnew⟩
    · rw [hs]
      exact .keep s'
    · rw [Option.ite_none_right_eq_some, Option.some.injEq] at hnew
      rw [hs, ← hnew.2]
      exact .keep _

theorem changes_adopt (r : Registry) (name : String) (base : Address) (lines : List CodeLine)
    (source : Nat) : r.Changes (r.adopt name base lines source).state := by
  unfold adopt
  split
  next => exact changes_refl r
  next s hs =>
    split
    next => exact changes_refl r
    next hres => exact changes_put hs (.adopt (by simpa using hres) base lines source) _

theorem changes_markUnified (r : Registry) (name : String) (size : UInt32) (marks : List Mark) :
    r.Changes (r.markUnified name size marks) := by
  unfold markUnified unifiedMap
  cases hs : r.symbols[name]? with
  | none => exact changes_refl r
  | some s =>
    cases hu : s.unified with
    | some u =>
      obtain ⟨g, hg⟩ := exists_foldl_mark marks u
      simp only [hu, hg, update]
      rw [← TreeMap.insert_eq_modify hs]
      exact changes_put hs (.mark hu g) _
    | none =>
      cases hblank : ofSize size with
      | error cause => simpa only [hu, hblank] using changes_refl r
      | ok blank =>
        obtain ⟨g, hg⟩ := exists_foldl_mark marks blank
        simp only [hu, hg, update]
        rw [← TreeMap.insert_eq_modify Std.ExtTreeMap.getElem?_insert_self, TreeMap.insert_insert]
        exact changes_put hs (.make hu hblank g) _

theorem changes_merge (r : Registry) (name : String) (m : CoverageMap) :
    r.Changes (r.merge name m).state := by
  unfold merge
  split
  next => exact changes_refl r
  next s hs =>
    split
    next => exact changes_refl r
    next u hu =>
      rw [merge_eq_mark]
      exact changes_put hs (.mark hu m.byte) _

theorem changes_count (r : Registry) : r.Changes r.count.state := by
  unfold count
  split
  next => exact changes_of_map (fun s => .count s _) fun k => Std.ExtTreeMap.getElem?_map
  next => exact changes_refl r

theorem changes_apply (r : Registry) (operation : Operation) : r.Changes (operation.apply r) := by
  cases operation with
  | insert name => exact changes_foldl_insert r [name]
  | load stream => exact changes_foldl_insert r _
  | adopt name base lines source => exact changes_adopt r name base lines source
  | mark name size marks => exact changes_markUnified r name size marks
  | merge name m => exact changes_merge r name m
  | analyze => exact changes_of_map .analyze fun k => Std.ExtTreeMap.getElem?_map
  | count => exact changes_count r

/-! ## Any number of operations -/

/-- Whatever is done to a registry, its symbols stay. A symbol that an executable has keeps its base,
its lines and its source, and a symbol that has a unified map keeps it, with its place and all its
flags. -/
theorem growsTo_perform (r : Registry) (operations : List Operation) :
    r.GrowsTo (r.perform operations) := by
  unfold perform
  induction operations generalizing r with
  | nil => exact (changes_refl r).growsTo
  | cons operation rest ih =>
    intro k s hs
    obtain ⟨s', hs', hgrows⟩ := (changes_apply r operation).growsTo k s hs
    obtain ⟨s'', hs'', hgrows'⟩ := ih (operation.apply r) k s' hs'
    exact ⟨s'', hs'', hgrows.trans hgrows'⟩

theorem sized_perform (h : ∀ k, ∀ s ∈ r.find? k, s.Sized) (operations : List Operation) :
    ∀ k, ∀ s ∈ (r.perform operations).find? k, s.Sized := by
  unfold perform
  induction operations generalizing r with
  | nil => exact h
  | cons operation rest ih =>
    refine ih fun k s' hs' => ((changes_apply r operation).found k s' hs').sized ?_
    cases hs : r.find? k with
    | none => exact fun u hu => by cases hu
    | some s => exact h k s hs

theorem size_lt_of_perform {operations : List Operation} {u : CoverageMap}
    (hs : (perform {} operations).find? k = some s) (hu : s.unified = some u) :
    u.size < 0x100000000 := by
  have hblank : ∀ k, ∀ s ∈ find? {} k, s.Sized := by simp [find?]
  exact sized_perform hblank operations k s hs u hu

end Registry

end TraceCoverage

import TraceCoverage.Proofs.Listing.Relocation
import Mathlib.Data.List.Sort

/-!
# An executable at another load address

Maps, symbol tables and targets that move together. An address finds in the one what the moved
address finds in the other, also where adding wraps, since nothing lies there on either side.
-/

namespace TraceCoverage

/-! ## Options -/

section

variable {α β γ δ : Type} {R : α → β → Prop} {o : Option α} {o' : Option β}

theorem rel_map {S : γ → δ → Prop} {f : α → γ} {g : β → δ} (h : Option.Rel R o o')
    (hfg : ∀ a a', R a a' → S (f a) (g a')) : Option.Rel S (o.map f) (o'.map g) := by
  cases h with
  | none => exact .none
  | some h => exact .some (hfg _ _ h)

theorem map_eq_map_of_rel {f : α → γ} {g : β → γ} (h : Option.Rel R o o')
    (hfg : ∀ a a', R a a' → f a = g a') : o.map f = o'.map g := by
  cases h with
  | none => rfl
  | some h => exact congrArg some (hfg _ _ h)

end

/-! ## Maps -/

namespace CoverageMap

/-- The same flags at addresses that are higher by `b`, none of which wraps. -/
structure Moved (b : Address) (m m' : CoverageMap) : Prop where
  low : m'.low.toNat = b.toNat + m.low.toNat
  flags : m'.flags = m.flags

namespace Moved

variable {b : Address} {m m' : CoverageMap} (h : m.Moved b m')
include h

theorem size : m'.size = m.size := congrArg Array.size h.flags

theorem byte (i : Nat) : m'.byte i = m.byte i := by
  rw [CoverageMap.byte, CoverageMap.byte, h.flags]

theorem low_eq : m'.low = b + m.low := by
  have hfits : Address.Fits b m.low := by
    have := m'.low.toNat_lt
    have := h.low
    unfold Address.Fits
    omega
  rw [← UInt32.toNat_inj, h.low, hfits.toNat_add]

theorem address (i : Nat) : m'.address i = b + m.address i := by
  rw [CoverageMap.address, CoverageMap.address, h.low_eq, UInt32.add_assoc]

theorem high : m'.high = b + m.high := by
  rw [CoverageMap.high, CoverageMap.high, h.flags, h.address]

theorem offset? (a : Address) : m'.offset? (b + a) = m.offset? a := by
  apply Option.ext
  intro i
  have hlow := h.low
  have hfits := m.low_add_size_le
  have hfits' := m'.low_add_size_le
  have ha := a.toNat_lt
  rw [offset?_eq_some_iff, offset?_eq_some_iff, h.size, UInt32.toNat_add]
  rw [h.size] at hfits'
  omega

theorem contains (a : Address) : m'.contains (b + a) = m.contains a := by
  have hoffset := h.offset? a
  rw [Bool.eq_iff_iff, ← not_iff_not, ← offset?_eq_none_iff, ← offset?_eq_none_iff, hoffset]

theorem isStartAt (i : Nat) : m'.isStartAt i = m.isStartAt i := by
  rw [isStartAt_eq, isStartAt_eq, h.byte]

theorem spans (i k : Nat) : m'.Spans i k ↔ m.Spans i k := by
  simp only [Spans, h.size, h.isStartAt]

theorem startFrom? (i : Nat) : m'.startFrom? i = m.startFrom? i := by
  rw [CoverageMap.startFrom?, CoverageMap.startFrom?, h.flags, funext h.isStartAt]

theorem nextStart? {a : Address} (ha : m.contains a = true) :
    m'.nextStart? (b + a) = (m.nextStart? a).map (b + ·) := by
  have hbelow : ∀ {m : CoverageMap} {a : Address}, m.contains a = true → ¬ a < m.low := by
    intro m a ha hlt
    rw [contains_iff] at ha
    rw [UInt32.lt_iff_toNat_lt] at hlt
    omega
  have ha' : m'.contains (b + a) = true := (h.contains a).trans ha
  rw [CoverageMap.nextStart?, CoverageMap.nextStart?, if_neg (hbelow ha), if_neg (hbelow ha'),
    h.offset?, funext h.startFrom?, funext h.address, Option.map_map]
  rfl

theorem mark (g : Nat → Flags) : (m.mark g).Moved b (m'.mark g) := by
  refine ⟨by simpa using h.low, ?_⟩
  rw [CoverageMap.mark, CoverageMap.mark, flags_mapFlags, flags_mapFlags, h.flags]

end Moved

end CoverageMap

/-! ## Tables -/

namespace SymbolEntry

def shift (b : Address) (entry : SymbolEntry) : SymbolEntry := { entry with base := b + entry.base }

structure Fits (b : Address) (entry : SymbolEntry) : Prop where
  base : entry.base ≤ entry.last
  last : Address.Fits b entry.last

namespace Fits

variable {b a : Address} {entry : SymbolEntry} (h : entry.Fits b)
include h

theorem base_le_iff (ha : Address.Fits b a) : (entry.shift b).base ≤ b + a ↔ entry.base ≤ a :=
  (h.last.of_le h.base).add_le_add_iff ha

theorem contains_shift (ha : Address.Fits b a) :
    (entry.shift b).contains (b + a) = entry.contains a := by
  have hlast : (entry.shift b).last = b + entry.last := UInt32.add_assoc _ _ _
  rw [contains, contains, hlast, decide_eq_decide.2 (h.base_le_iff ha),
    decide_eq_decide.2 (ha.add_le_add_iff h.last)]

theorem of_not_fits (ha : ¬ Address.Fits b a) :
    entry.contains a = false ∧ b + a < (entry.shift b).base := by
  constructor
  · rw [contains, Bool.and_eq_false_iff]
    exact .inr (decide_eq_false fun hle => ha (h.last.of_le hle))
  · have hbase := (h.last.of_le h.base).toNat_add
    have := b.toNat_lt
    have := a.toNat_lt
    unfold Address.Fits at ha
    rw [UInt32.lt_iff_toNat_lt, shift, hbase, UInt32.toNat_add]
    omega

end Fits

end SymbolEntry

namespace SymbolTable

structure Moved (b : Address) (t t' : SymbolTable) : Prop where
  entries : t'.toList = t.toList.map (SymbolEntry.shift b)
  find? name : t'.find? name = (t.find? name).map (SymbolEntry.shift b)
  fits : ∀ entry ∈ t.toList, entry.Fits b

variable {b : Address} {t t' : SymbolTable}

theorem Moved.at? (h : t.Moved b t') (a : Address) :
    t'.at? (b + a) = (t.at? a).map (SymbolEntry.shift b) := by
  have hmem : ∀ entry, (t.toList.filter fun e => e.base ≤ a).getLast? = some entry →
      entry.Fits b :=
    fun entry hlast => h.fits entry (List.mem_filter.1 (List.mem_of_getLast? hlast)).1
  rw [SymbolTable.at?, SymbolTable.at?, h.entries, List.filter_map]
  by_cases ha : Address.Fits b a
  · have hbelow : ∀ entry ∈ t.toList,
        ((fun e : SymbolEntry => decide (e.base ≤ b + a)) ∘ SymbolEntry.shift b) entry =
          decide (entry.base ≤ a) :=
      fun entry he => decide_eq_decide.2 ((h.fits entry he).base_le_iff ha)
    rw [List.filter_congr hbelow, List.getLast?_map]
    cases hlast : (t.toList.filter fun e => e.base ≤ a).getLast? with
    | none => rfl
    | some entry =>
      rw [Option.map_some, Option.filter_some, Option.filter_some,
        (hmem entry hlast).contains_shift ha]
      split <;> rfl
  · have hnone : t.toList.filter ((fun e : SymbolEntry => decide (e.base ≤ b + a)) ∘
        SymbolEntry.shift b) = [] :=
      List.filter_eq_nil_iff.2 fun entry he hle =>
        absurd (of_decide_eq_true hle) (UInt32.not_le.2 ((h.fits entry he).of_not_fits ha).2)
    rw [hnone, List.map_nil, List.getLast?_nil]
    cases hlast : (t.toList.filter fun e => e.base ≤ a).getLast? with
    | none => rfl
    | some entry =>
      rw [Option.filter_some, ((hmem entry hlast).of_not_fits ha).1]
      rfl

/-! ## Tables that are built alike -/

/-- The trees of the tables have the same entries at keys that are higher by `b`. -/
structure Keyed (b : Address) (t t' : SymbolTable) : Prop where
  byAddress (base : Address) :
    t'.byAddress[b + base]? = t.byAddress[base]?.map (SymbolEntry.shift b)
  byName (name : String) : t'.byName[name]? = t.byName[name]?.map (b + ·)

theorem Keyed.add (h : t.Keyed b t') (name : String) (base : Address) (size : UInt32) :
    (t.add name base size).Keyed b (t'.add name (b + base) size) := by
  constructor
  · intro a
    have hleft : t.byName[name]?.map (b + ·) = some (b + a) ↔ t.byName[name]? = some a := by
      simp [Option.map_eq_some_iff]
    simp only [getElem?_byAddress_add, h.byName, h.byAddress, UInt32.add_right_inj, hleft]
    split
    next => rfl
    next => split <;> rfl
  · intro k
    rw [getElem?_byName_add, getElem?_byName_add, h.byName]
    split <;> rfl

theorem Keyed.moved (h : t.Keyed b t') (hplaced : t.Placed)
    (hfits : ∀ entry ∈ t.toList, entry.Fits b) : t.Moved b t' := by
  have hplaced' : t'.Placed := by
    intro base entry hentry
    rw [← Address.base_add_sub b base, h.byAddress, Option.map_eq_some_iff] at hentry
    obtain ⟨entry, hentry, rfl⟩ := hentry
    rw [SymbolEntry.shift, hplaced _ _ hentry, Address.base_add_sub]
  have hmem : ∀ entry, entry ∈ t'.toList ↔ entry ∈ t.toList.map (SymbolEntry.shift b) := by
    intro entry
    simp only [mem_toList, List.mem_map]
    constructor
    · rintro ⟨base, hentry⟩
      rw [← Address.base_add_sub b base, h.byAddress, Option.map_eq_some_iff] at hentry
      obtain ⟨entry, hentry, rfl⟩ := hentry
      exact ⟨entry, ⟨_, hentry⟩, rfl⟩
    · rintro ⟨entry, ⟨base, hentry⟩, rfl⟩
      exact ⟨b + base, by rw [h.byAddress, hentry, Option.map_some]⟩
  have hsorted : (t.toList.map (SymbolEntry.shift b)).Pairwise fun e e' => e.base < e'.base := by
    rw [List.pairwise_map]
    refine hplaced.sorted.imp_of_mem fun {e e'} he he' hlt => ?_
    have hbase := (hfits e he).last.of_le (hfits e he).base
    have hbase' := (hfits e' he').last.of_le (hfits e' he').base
    exact (hbase.add_lt_add_iff hbase').2 hlt
  have : Std.Irrefl fun e e' : SymbolEntry => e.base < e'.base :=
    ⟨fun e => UInt32.lt_irrefl e.base⟩
  have : Std.Antisymm fun e e' : SymbolEntry => e.base < e'.base :=
    ⟨fun e e' hlt hgt => absurd (UInt32.lt_trans hlt hgt) (UInt32.lt_irrefl e.base)⟩
  refine ⟨hplaced'.sorted.eq_of_mem_iff hsorted hmem, fun name => ?_, hfits⟩
  rw [SymbolTable.find?, SymbolTable.find?, h.byName]
  cases t.byName[name]? with
  | none => rfl
  | some base => exact h.byAddress base

end SymbolTable

namespace ResolvedSymbol

variable {b : Address} {symbols : List ResolvedSymbol}

theorem Fits.entry {s : ResolvedSymbol} (h : s.Fits b) : s.entry.Fits b := by
  have hbase : s.entry.base = s.base := rfl
  by_cases hsize : s.size = 0
  · have hlast : s.entry.last = s.base := by
      rw [SymbolEntry.last, ResolvedSymbol.entry, if_pos hsize, UInt32.add_zero]
    refine ⟨?_, ?_⟩
    · rw [hbase, hlast]
      exact UInt32.le_refl _
    · rw [hlast]
      exact h.last.of_le h.base
  · have hlast : s.entry.last = s.last := by
      rw [SymbolEntry.last, ResolvedSymbol.entry, if_neg hsize, ResolvedSymbol.last]
    refine ⟨?_, ?_⟩
    · rw [hbase, hlast]
      exact h.base
    · rw [hlast]
      exact h.last

theorem of_getElem?_tableOf {base : Address} {entry : SymbolEntry}
    (h : (tableOf symbols).byAddress[base]? = some entry) :
    entry.base = base ∧ ∃ s ∈ symbols, s.entry = entry := by
  rw [tableOf_eq] at h
  obtain ⟨hbase, hlast⟩ := SymbolTable.of_getElem?_byAddress h
  exact ⟨hbase, List.mem_map.1 (SymbolTable.mem_of_lastOf? hlast)⟩

theorem keyed_tableOf (b : Address) (symbols : List ResolvedSymbol) :
    (tableOf symbols).Keyed b (tableOf (symbols.map (shift b))) := by
  induction symbols using List.reverseRecOn with
  | nil => exact ⟨fun _ => by simp [tableOf], fun _ => by simp [tableOf]⟩
  | append_singleton before s ih =>
    rw [List.map_append, List.map_singleton, tableOf_concat, tableOf_concat]
    exact ih.add s.name s.base s.size

theorem moved_tableOf (h : ∀ s ∈ symbols, s.Fits b) :
    (tableOf symbols).Moved b (tableOf (symbols.map (shift b))) := by
  refine (keyed_tableOf b symbols).moved (fun base entry he => (of_getElem?_tableOf he).1) ?_
  intro entry he
  obtain ⟨base, he⟩ := SymbolTable.mem_toList.1 he
  obtain ⟨_, s, hs, rfl⟩ := of_getElem?_tableOf he
  exact (h s hs).entry

end ResolvedSymbol

/-! ## Executables -/

namespace ResolvedSymbol

variable {b : Address} {s : ResolvedSymbol} {m m' : CoverageMap}

theorem Draws.moved (h : s.Draws m) (h' : (s.shift b).Draws m') (hfits : s.Fits b) :
    m.Moved b m' := by
  have hlow : m'.low.toNat = b.toNat + m.low.toNat := by
    rw [h'.low, h.low, shift, (hfits.last.of_le hfits.base).toNat_add]
  have hhigh : m'.high.toNat = b.toNat + m.high.toNat := by
    rw [h'.high, h.high, last_shift, hfits.last.toNat_add]
  have hsize : m'.size = m.size := by
    have := m.size_pos
    have := m'.size_pos
    rw [CoverageMap.toNat_high, CoverageMap.toNat_high] at hhigh
    omega
  have haddress (i : Nat) : m'.address i = b + m.address i := by
    rw [CoverageMap.address, CoverageMap.address, h'.low, h.low, shift, UInt32.add_assoc]
  refine ⟨hlow, Array.ext hsize fun i hi hi' => ?_⟩
  have hbyte : m'.byte i = m.byte i := by
    rw [h'.byte i hi, h.byte i hi', haddress, shift, CodeLine.flagsAt_shift]
  exact Option.some.inj <| by
    rw [← Array.getElem?_eq_getElem hi, ← Array.getElem?_eq_getElem hi',
      CoverageMap.getElem?_flags hi, CoverageMap.getElem?_flags hi', hbyte]

end ResolvedSymbol

namespace Executable

/-- The same executable with all that was read into it at addresses that are higher by `b`. -/
structure Moved (b : Address) (e e' : Executable) : Prop where
  frame : e' =
    { e with
      loadAddress := b + e.loadAddress
      symbols := e'.symbols
      maps := e'.maps
      targets := e'.targets }
  symbols : e.symbols.Moved b e'.symbols
  maps (name : String) : Option.Rel (CoverageMap.Moved b) e.maps[name]? e'.maps[name]?
  target? a : e'.target? (b + a) = (e.target? a).map (b + ·)

variable {b : Address} {e e' : Executable}

section

variable (h : e.Moved b e')
include h

theorem Moved.lookup? (a : Address) :
    Option.Rel (fun found found' => found.1 = found'.1 ∧ found.2.Moved b found'.2)
      (e.lookup? a) (e'.lookup? (b + a)) := by
  rw [Executable.lookup?, Executable.lookup?, h.symbols.at?]
  cases e.symbols.at? a with
  | none => exact .none
  | some entry =>
    have hmap := h.maps entry.name
    simp only [Option.map_some, SymbolEntry.shift]
    generalize e.maps[entry.name]? = m?, e'.maps[entry.name]? = m'? at hmap
    cases hmap with
    | none => exact .none
    | some hm =>
      rw [Option.filter_some, Option.filter_some, hm.contains]
      split
      · exact .some ⟨rfl, hm⟩
      · exact .none

theorem Moved.exists_lookup?_iff {name : String} {a : Address} {P P' : CoverageMap → Prop}
    (hP : ∀ m m', m.Moved b m' → m.contains a = true → (P' m' ↔ P m)) :
    (∃ m', e'.lookup? (b + a) = some (name, m') ∧ P' m') ↔
      ∃ m, e.lookup? a = some (name, m) ∧ P m := by
  have hlookup := h.lookup? a
  cases hl : e.lookup? a with
  | none =>
    rw [hl] at hlookup
    cases hl' : e'.lookup? (b + a) with
    | none => simp
    | some => rw [hl'] at hlookup; cases hlookup
  | some found =>
    obtain ⟨name', m⟩ := found
    obtain ⟨_, _, _, _, hcontains⟩ := lookup?_eq_some_iff.1 hl
    rw [hl] at hlookup
    cases hl' : e'.lookup? (b + a) with
    | none => rw [hl'] at hlookup; cases hlookup
    | some found' =>
      obtain ⟨_, m'⟩ := found'
      rw [hl'] at hlookup
      cases hlookup with
      | some hm =>
        obtain ⟨rfl, hm⟩ := hm
        simp only [Option.some.injEq, Prod.mk.injEq, and_assoc, exists_and_left, exists_eq_left',
          hP m m' hm hcontains]

theorem Moved.mapAt? (a : Address) :
    Option.Rel (CoverageMap.Moved b) (e.mapAt? a) (e'.mapAt? (b + a)) := by
  rw [Executable.mapAt?, Executable.mapAt?]
  exact rel_map (h.lookup? a) fun _ _ hm => hm.2

theorem Moved.mark (g : Marks) : (e.mark g).Moved b (e'.mark g) where
  frame := by
    rw [Executable.mark, h.frame]
    rfl
  symbols := h.symbols
  maps name := by
    rw [getElem?_maps_mark, getElem?_maps_mark]
    exact rel_map (h.maps name) fun _ _ hm => hm.mark _
  target? := h.target?

end

/-- Reading the symbols of one listing at two places leaves executables that are moved. -/
theorem Built.moved {fresh fresh' : Executable} {symbols : List ResolvedSymbol}
    (hb : fresh.Built symbols e)
    (hb' : fresh'.Built (symbols.map (ResolvedSymbol.shift b)) e')
    (hfresh : fresh' = { fresh with loadAddress := b + fresh.loadAddress })
    (hfits : ∀ s ∈ symbols, s.Fits b) : e.Moved b e' where
  frame := by
    rw [hb'.frame, hfresh, hb.frame]
  symbols := by
    rw [hb.table, hb'.table]
    exact ResolvedSymbol.moved_tableOf hfits
  maps name := by
    cases hm : e.maps[name]? with
    | some m =>
      obtain ⟨s, hs, rfl, hdraws⟩ := hb.getElem?_maps_iff.1 hm
      obtain ⟨m', hm', hdraws'⟩ := hb'.mapped _ (List.mem_map_of_mem hs)
      have hname : (s.shift b).name = s.name := rfl
      rw [hname] at hm'
      rw [hm']
      exact .some (hdraws.moved hdraws' (hfits s hs))
    | none =>
      cases hm' : e'.maps[name]? with
      | none => exact .none
      | some m' =>
        obtain ⟨_, hs', hname, _⟩ := hb'.getElem?_maps_iff.1 hm'
        obtain ⟨s, hs, rfl⟩ := List.mem_map.1 hs'
        obtain ⟨m, hm₀, _⟩ := hb.mapped s hs
        have hname : s.name = name := hname
        rw [hname, hm] at hm₀
        cases hm₀
  target? a := by
    rw [hb.target, hb'.target, ← CodeLine.targetAt?_shift, List.flatMap_map, List.map_flatMap]
    rfl

end Executable

end TraceCoverage

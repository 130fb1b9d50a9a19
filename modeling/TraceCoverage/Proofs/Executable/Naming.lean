import TraceCoverage.Proofs.Executable.Lookup
import Mathlib.Data.List.Dedup
import Mathlib.Data.List.Induction
import Mathlib.Data.List.Perm.Subperm

/-!
# Looking a name up in a symbol table

One tree leads from names to bases and another one from bases to entries. A name finds the entry
that was added last under it, unless a later symbol was put at the base of that entry or was moved
away from there. The table has as many entries as there are names that find theirs. If names and
bases are distinct, all of them do.
-/

namespace TraceCoverage.SymbolTable

variable {t : SymbolTable} {added before after : List SymbolEntry} {e : SymbolEntry} {name : String}

/-! ## One entry more -/

theorem getElem?_byName_add (t : SymbolTable) (name : String) (base : Address) (size : UInt32)
    (name' : String) :
    (t.add name base size).byName[name']? = if name = name' then some base else t.byName[name']? :=
  TreeMap.getElem?_insert_eq _ _ _ _

theorem getElem?_byAddress_add (t : SymbolTable) (name : String) (base : Address) (size : UInt32)
    (a : Address) :
    (t.add name base size).byAddress[a]? =
      if base = a then some { name, base, size }
      else if t.byName[name]? = some a then none
      else t.byAddress[a]? := by
  rw [add, TreeMap.getElem?_insert_eq]
  cases t.byName[name]? with
  | none => simp
  | some old => simp only [TreeMap.getElem?_erase_eq, Option.some.injEq]

/-! ## Many entries -/

def ofEntries (added : List SymbolEntry) : SymbolTable :=
  added.foldl (fun t e => t.add e.name e.base e.size) {}

def lastOf? (added : List SymbolEntry) (name : String) : Option SymbolEntry :=
  added.reverse.find? (·.name == name)

theorem ofEntries_concat (added : List SymbolEntry) (e : SymbolEntry) :
    ofEntries (added ++ [e]) = (ofEntries added).add e.name e.base e.size := by
  rw [ofEntries, List.foldl_append]
  rfl

theorem lastOf?_concat (added : List SymbolEntry) (e : SymbolEntry) (name : String) :
    lastOf? (added ++ [e]) name = if e.name = name then some e else lastOf? added name := by
  rw [lastOf?, List.reverse_concat, List.find?_cons]
  by_cases hname : e.name = name
  · rw [if_pos hname, beq_iff_eq.2 hname]
  · rw [if_neg hname, beq_false_of_ne hname, lastOf?]

theorem name_of_lastOf? (h : lastOf? added name = some e) : e.name = name := by
  simpa using List.find?_some h

theorem mem_of_lastOf? (h : lastOf? added name = some e) : e ∈ added :=
  List.mem_reverse.1 (List.mem_of_find?_eq_some h)

theorem lastOf?_eq_none_iff : lastOf? added name = none ↔ name ∉ added.map (·.name) := by
  simp [lastOf?]

theorem exists_lastOf?_iff : (∃ e, lastOf? added name = some e) ↔ name ∈ added.map (·.name) := by
  rw [← Option.ne_none_iff_exists', Ne, lastOf?_eq_none_iff, not_not]

theorem lastOf?_append_cons (h : ∀ later ∈ after, later.name ≠ e.name) :
    lastOf? (before ++ e :: after) e.name = some e := by
  have hnone : after.reverse.find? (·.name == e.name) = none := by simpa using h
  simp [lastOf?, hnone]

theorem exists_append_of_lastOf? (h : lastOf? added name = some e) :
    ∃ before after, added = before ++ e :: after ∧ ∀ later ∈ after, later.name ≠ e.name := by
  induction added using List.reverseRecOn with
  | nil => cases h
  | append_singleton front e' ih =>
    rw [lastOf?_concat] at h
    split at h
    next =>
      cases h
      exact ⟨front, [], rfl, List.forall_mem_nil _⟩
    next hne =>
      obtain ⟨before, after, rfl, hafter⟩ := ih h
      refine ⟨before, after ++ [e'], by simp, fun later hlater => ?_⟩
      rcases List.mem_append.1 hlater with hlater | hlater
      · exact hafter later hlater
      · rw [List.mem_singleton.1 hlater, name_of_lastOf? h]
        exact hne

theorem getElem?_byName_ofEntries (added : List SymbolEntry) (name : String) :
    (ofEntries added).byName[name]? = (lastOf? added name).map (·.base) := by
  induction added using List.reverseRecOn with
  | nil => exact Std.ExtTreeMap.getElem?_empty
  | append_singleton before e ih =>
    rw [ofEntries_concat, getElem?_byName_add, lastOf?_concat, ih]
    split <;> rfl

theorem of_getElem?_byAddress {a : Address} (h : (ofEntries added).byAddress[a]? = some e) :
    e.base = a ∧ lastOf? added e.name = some e := by
  induction added using List.reverseRecOn with
  | nil => cases h.symm.trans Std.ExtTreeMap.getElem?_empty
  | append_singleton before e' ih =>
    rw [ofEntries_concat, getElem?_byAddress_add] at h
    rw [lastOf?_concat]
    split at h
    next hbase =>
      cases h
      exact ⟨hbase, if_pos rfl⟩
    next =>
      rw [Option.ite_none_left_eq_some] at h
      obtain ⟨hstays, hentry⟩ := h
      obtain ⟨hbase, hlast⟩ := ih hentry
      refine ⟨hbase, ?_⟩
      -- Another entry of the same name would have taken this one along.
      rw [if_neg, hlast]
      intro hname
      rw [getElem?_byName_ofEntries, hname, hlast, Option.map_some, hbase] at hstays
      exact hstays rfl

theorem placed_ofEntries (added : List SymbolEntry) : (ofEntries added).Placed :=
  fun _ _ h => (of_getElem?_byAddress h).1

/-! ## What a name finds -/

/-- A later entry takes the place of an entry: it is put at the same base, or its name lay there
first and moves. -/
def Displaces (before : List SymbolEntry) (e later : SymbolEntry) : Prop :=
  later.base = e.base ∨ ∃ old, lastOf? before later.name = some old ∧ old.base = e.base

/-- No entry stays that another name takes the place of, and it does not come back. -/
theorem find?_foldl_add (hname : t.byName[e.name]? = some e.base)
    (hafter : ∀ later ∈ after, later.name ≠ e.name) :
    (after.foldl (fun t e => t.add e.name e.base e.size) t).find? e.name = some e ↔
      t.byAddress[e.base]? = some e ∧
        ∀ later ∈ after, later.base ≠ e.base ∧ t.byName[later.name]? ≠ some e.base := by
  induction after generalizing t with
  | nil =>
    rw [List.foldl_nil, find?, hname, Option.bind_some]
    simp
  | cons c rest ih =>
    obtain ⟨hc, hrest⟩ := List.forall_mem_cons.1 hafter
    have hname' : (t.add c.name c.base c.size).byName[e.name]? = some e.base := by
      rw [getElem?_byName_add, if_neg hc, hname]
    rw [List.foldl_cons, ih hname' hrest, getElem?_byAddress_add, List.forall_mem_cons]
    by_cases hbase : c.base = e.base
    · have hother : some (⟨c.name, c.base, c.size⟩ : SymbolEntry) ≠ some e := by
        rintro ⟨rfl⟩
        exact hc rfl
      simp [hbase, hbase ▸ hother]
    · by_cases hmoved : t.byName[c.name]? = some e.base
      · simp [hbase, hmoved]
      · have hsame : ∀ later : SymbolEntry,
            (t.add c.name c.base c.size).byName[later.name]? ≠ some e.base ↔
              t.byName[later.name]? ≠ some e.base := by
          intro later
          rw [getElem?_byName_add]
          split
          next heq => simp [hbase, ← heq, hmoved]
          next => rfl
        simp [hbase, hmoved, hsame]

theorem find?_ofEntries_iff (hafter : ∀ later ∈ after, later.name ≠ e.name) :
    (ofEntries (before ++ e :: after)).find? e.name = some e ↔
      ∀ later ∈ after, ¬ Displaces before e later := by
  have hname : ((ofEntries before).add e.name e.base e.size).byName[e.name]? = some e.base := by
    rw [getElem?_byName_add, if_pos rfl]
  rw [ofEntries, List.foldl_append, List.foldl_cons, ← ofEntries, find?_foldl_add hname hafter,
    getElem?_byAddress_add, if_pos rfl, and_iff_right rfl]
  refine forall₂_congr fun later hlater => ?_
  rw [getElem?_byName_add, if_neg (hafter later hlater).symm, getElem?_byName_ofEntries,
    Displaces, not_or, ← Option.map_eq_some_iff]

/-! ## Distinct symbols -/

section

variable (hnames : (added.map (·.name)).Nodup) (hbases : (added.map (·.base)).Nodup)
include hnames hbases

theorem find?_ofEntries_of_nodup :
    (ofEntries added).find? name = some e ↔ e ∈ added ∧ e.name = name := by
  constructor
  · intro hfind
    obtain ⟨base, hname, hentry⟩ := Option.bind_eq_some_iff.1 hfind
    rw [getElem?_byName_ofEntries, Option.map_eq_some_iff] at hname
    obtain ⟨e', hlast', rfl⟩ := hname
    obtain ⟨hbase, hlast⟩ := of_getElem?_byAddress hentry
    have hmem := mem_of_lastOf? hlast
    have heq := List.inj_on_of_nodup_map hbases hmem (mem_of_lastOf? hlast') hbase
    exact ⟨hmem, heq ▸ name_of_lastOf? hlast'⟩
  · rintro ⟨hmem, rfl⟩
    obtain ⟨before, after, rfl⟩ := List.append_of_mem hmem
    rw [List.map_append, List.map_cons, List.nodup_append, List.nodup_cons] at hnames hbases
    obtain ⟨_, ⟨hname, _⟩, happart⟩ := hnames
    refine (find?_ofEntries_iff fun later hlater heq =>
      hname (heq ▸ List.mem_map_of_mem hlater)).2 fun later hlater => ?_
    rintro (hbase | ⟨old, hold, _⟩)
    · exact hbases.2.1.1 (hbase ▸ List.mem_map_of_mem hlater)
    · exact happart _ (List.mem_map_of_mem (mem_of_lastOf? hold)) _
        (List.mem_cons_of_mem _ (List.mem_map_of_mem hlater)) (name_of_lastOf? hold)

theorem getElem?_byAddress_ofEntries_of_nodup {a : Address} :
    (ofEntries added).byAddress[a]? = some e ↔ e ∈ added ∧ e.base = a := by
  constructor
  · intro hentry
    obtain ⟨hbase, hlast⟩ := of_getElem?_byAddress hentry
    exact ⟨mem_of_lastOf? hlast, hbase⟩
  · rintro ⟨hmem, rfl⟩
    have hfind := (find?_ofEntries_of_nodup hnames hbases).2 ⟨hmem, rfl⟩
    obtain ⟨base, _, hentry⟩ := Option.bind_eq_some_iff.1 hfind
    rwa [(of_getElem?_byAddress hentry).1]

end

/-! ## How many entries there are -/

theorem mem_names_toList_iff :
    name ∈ (ofEntries added).toList.map (·.name) ↔
      ∃ e, lastOf? added name = some e ∧ (ofEntries added).find? name = some e := by
  rw [List.mem_map]
  constructor
  · rintro ⟨e, hmem, rfl⟩
    obtain ⟨base, hentry⟩ := mem_toList.1 hmem
    obtain ⟨rfl, hlast⟩ := of_getElem?_byAddress hentry
    refine ⟨e, hlast, ?_⟩
    rw [find?, getElem?_byName_ofEntries, hlast]
    exact hentry
  · rintro ⟨e, hlast, hfind⟩
    rw [find?, getElem?_byName_ofEntries, hlast] at hfind
    exact ⟨e, mem_toList.2 ⟨_, hfind⟩, name_of_lastOf? hlast⟩

theorem nodup_names_toList (added : List SymbolEntry) :
    ((ofEntries added).toList.map (·.name)).Nodup := by
  rw [List.Nodup, List.pairwise_map]
  refine (placed_ofEntries added).sorted.imp_of_mem fun {e e'} hmem hmem' hlt hname => ?_
  obtain ⟨_, hentry⟩ := mem_toList.1 hmem
  obtain ⟨_, hentry'⟩ := mem_toList.1 hmem'
  have hlast := (of_getElem?_byAddress hentry).2
  rw [hname, (of_getElem?_byAddress hentry').2] at hlast
  cases hlast
  exact UInt32.lt_irrefl _ hlt

theorem size_eq_length_names (t : SymbolTable) : t.size = (t.toList.map (·.name)).length := by
  rw [List.length_map, toList, TreeMap.values_eq, List.length_map, size,
    Std.ExtTreeMap.length_toList]

theorem size_ofEntries (added : List SymbolEntry) :
    (ofEntries added).size ≤ (added.map (·.name)).dedup.length ∧
      ((ofEntries added).size = (added.map (·.name)).dedup.length ↔
        ∀ (name : String) (e : SymbolEntry), lastOf? added name = some e →
          (ofEntries added).find? name = some e) := by
  have hsubset : (ofEntries added).toList.map (·.name) ⊆ (added.map (·.name)).dedup := by
    intro name hname
    obtain ⟨e, hlast, _⟩ := mem_names_toList_iff.1 hname
    exact List.mem_dedup.2 (exists_lastOf?_iff.1 ⟨e, hlast⟩)
  have hsubperm := (nodup_names_toList added).subperm hsubset
  rw [size_eq_length_names]
  refine ⟨hsubperm.length_le, fun hlength name e hlast => ?_, fun hfind => ?_⟩
  · have hperm := hsubperm.perm_of_length_le (Nat.le_of_eq hlength.symm)
    have hmem : name ∈ (added.map (·.name)).dedup :=
      List.mem_dedup.2 (exists_lastOf?_iff.1 ⟨e, hlast⟩)
    obtain ⟨e', hlast', hfind⟩ := mem_names_toList_iff.1 (hperm.mem_iff.2 hmem)
    rwa [← hlast', hlast] at hfind
  · refine Nat.le_antisymm hsubperm.length_le (List.Subperm.length_le ?_)
    refine (List.nodup_dedup _).subperm fun name hname => ?_
    obtain ⟨e, hlast⟩ := exists_lastOf?_iff.2 (List.mem_dedup.1 hname)
    exact mem_names_toList_iff.2 ⟨e, hlast, hfind name e hlast⟩

/-! ## Names and bases -/

/-- A name that was not added finds nothing. A name finds the entry that was added last under it
exactly if none of the entries behind displaces that one. The table never has more entries than
names, and as many exactly if no name lost its entry. -/
theorem names_ofEntries (added : List SymbolEntry) :
    (∀ name, name ∉ added.map (·.name) → (ofEntries added).find? name = none) ∧
      (∀ before e after, added = before ++ e :: after → (∀ later ∈ after, later.name ≠ e.name) →
        ((ofEntries added).find? e.name = some e ↔ ∀ later ∈ after, ¬ Displaces before e later)) ∧
      (ofEntries added).size ≤ (added.map (·.name)).dedup.length ∧
      ((ofEntries added).size = (added.map (·.name)).dedup.length ↔
        ∀ before e after, added = before ++ e :: after → (∀ later ∈ after, later.name ≠ e.name) →
          ∀ later ∈ after, ¬ Displaces before e later) := by
  obtain ⟨hle, hsize⟩ := size_ofEntries added
  refine ⟨fun name hnone => ?_, ?_, hle, hsize.trans ⟨?_, ?_⟩⟩
  · rw [find?, getElem?_byName_ofEntries, lastOf?_eq_none_iff.2 hnone]
    rfl
  · rintro before e after rfl hafter
    exact find?_ofEntries_iff hafter
  · rintro hfind before e after rfl hafter
    exact (find?_ofEntries_iff hafter).1 (hfind e.name e (lastOf?_append_cons hafter))
  · intro hstays name e hlast
    obtain ⟨before, after, rfl, hafter⟩ := exists_append_of_lastOf? hlast
    rw [← name_of_lastOf? hlast]
    exact (find?_ofEntries_iff hafter).2 (hstays before e after rfl hafter)

def movedOnce : List SymbolEntry := [⟨"f", 0x100, 4⟩, ⟨"g", 0x200, 8⟩, ⟨"f", 0x300, 2⟩]

theorem names_ofEntries_movedOnce :
    (ofEntries movedOnce).find? "g" = some ⟨"g", 0x200, 8⟩ ∧
      (ofEntries movedOnce).find? "f" = some ⟨"f", 0x300, 2⟩ ∧
      (ofEntries movedOnce).find? "h" = none := by
  obtain ⟨hnone, hfind, _⟩ := names_ofEntries movedOnce
  have hkept : ∀ later ∈ [(⟨"f", 0x300, 2⟩ : SymbolEntry)],
      ¬ Displaces [⟨"f", 0x100, 4⟩] ⟨"g", 0x200, 8⟩ later := by
    simp [Displaces, lastOf?]
  refine ⟨?_, ?_, hnone "h" (by decide)⟩
  · exact (hfind [⟨"f", 0x100, 4⟩] ⟨"g", 0x200, 8⟩ _ rfl (by simp)).2 hkept
  · exact (hfind [⟨"f", 0x100, 4⟩, ⟨"g", 0x200, 8⟩] ⟨"f", 0x300, 2⟩ [] rfl (by simp)).2 (by simp)

/-- Two symbols at one base. The name of the first one finds the second one, and if the first one is
moved afterwards, the second one is lost. -/
theorem find?_other_symbol :
    (ofEntries [⟨"f", 0x100, 4⟩, ⟨"g", 0x100, 8⟩]).find? "f" = some ⟨"g", 0x100, 8⟩ ∧
      (ofEntries [⟨"f", 0x100, 4⟩, ⟨"g", 0x100, 8⟩]).size = 1 ∧
      (ofEntries [⟨"f", 0x100, 4⟩, ⟨"g", 0x100, 8⟩, ⟨"f", 0x200, 4⟩]).find? "g" = none := by
  decide +kernel

end TraceCoverage.SymbolTable

import TraceCoverage.Executable.SymbolTable
import TraceCoverage.Proofs.TreeMap
import Mathlib.Tactic.Common

/-!
# Looking an address up in a symbol table

The entry with the greatest base at or below an address answers for it, if every entry stands at its
base.
-/

namespace TraceCoverage

namespace SymbolTable

variable {t : SymbolTable} {entry : SymbolEntry} {a : Address}

theorem mem_toList : entry ∈ t.toList ↔ ∃ base : Address, t.byAddress[base]? = some entry := by
  rw [toList, TreeMap.values_eq, List.mem_map]
  constructor
  · rintro ⟨⟨base, e⟩, hmem, rfl⟩
    exact ⟨base, Std.ExtTreeMap.mem_toList_iff_getElem?_eq_some.1 hmem⟩
  · rintro ⟨base, h⟩
    exact ⟨(base, entry), Std.ExtTreeMap.mem_toList_iff_getElem?_eq_some.2 h, rfl⟩

def Placed (t : SymbolTable) : Prop :=
  ∀ (base : Address) entry, t.byAddress[base]? = some entry → entry.base = base

theorem Placed.sorted (h : t.Placed) : t.toList.Pairwise fun e e' => e.base < e'.base := by
  rw [toList, TreeMap.values_eq, List.pairwise_map]
  refine Std.ExtTreeMap.ordered_keys_toList.imp_of_mem fun {p p'} hp hp' hlt => ?_
  rw [h _ _ (Std.ExtTreeMap.mem_toList_iff_getElem?_eq_some.1 hp),
    h _ _ (Std.ExtTreeMap.mem_toList_iff_getElem?_eq_some.1 hp')]
  exact Std.compare_eq_lt.1 hlt

theorem getLast?_of_greatest {entries : List SymbolEntry}
    (hsorted : entries.Pairwise fun e e' => e.base < e'.base) (hmem : entry ∈ entries)
    (hmax : ∀ e ∈ entries, e.base ≤ entry.base) : entries.getLast? = some entry := by
  obtain ⟨before, after, rfl⟩ := List.append_of_mem hmem
  have hnil : after = [] := by
    cases after with
    | nil => rfl
    | cons e rest =>
      have hlt := (List.pairwise_cons.1 (List.pairwise_append.1 hsorted).2.1).1 e List.mem_cons_self
      exact absurd (hmax e (by simp)) (UInt32.not_le.2 hlt)
  rw [hnil, List.getLast?_concat]

/-- The entry with the greatest base at or below an address answers for it. -/
theorem at?_eq_some (h : t.Placed) (hentry : t.byAddress[entry.base]? = some entry)
    (hmax : ∀ e ∈ t.toList, e.base ≤ a → e.base ≤ entry.base) (hcontains : entry.contains a = true) :
    t.at? a = some entry := by
  have hle : entry.base ≤ a := by
    simp only [SymbolEntry.contains, Bool.and_eq_true, decide_eq_true_eq] at hcontains
    exact hcontains.1
  have hlast : (t.toList.filter fun e => e.base ≤ a).getLast? = some entry := by
    apply getLast?_of_greatest (h.sorted.filter _)
    · exact List.mem_filter.2 ⟨mem_toList.2 ⟨_, hentry⟩, by simpa using hle⟩
    · intro e he
      obtain ⟨hmem, hbelow⟩ := List.mem_filter.1 he
      exact hmax e hmem (by simpa using hbelow)
  rw [at?, hlast, Option.filter_some, if_pos hcontains]

end SymbolTable

end TraceCoverage

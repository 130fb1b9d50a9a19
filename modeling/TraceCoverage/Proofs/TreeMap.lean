import Std.Data.ExtTreeMap

/-!
# Ordered maps

Facts about ordered maps that the library does not have in this form: changes at one key, read at
any other, and the list of values.
-/

namespace TraceCoverage.TreeMap

variable {α β : Type} [Ord α] [Std.TransOrd α] {t : Std.ExtTreeMap α β} {k : α} {v : β} {f : β → β}

theorem contains_of_getElem? (h : t[k]? = some v) : t.contains k = true := by
  rw [Std.ExtTreeMap.contains_eq_isSome_getElem?, h, Option.isSome_some]

theorem exists_of_contains (h : t.contains k = true) : ∃ v, t[k]? = some v := by
  rwa [Std.ExtTreeMap.contains_eq_isSome_getElem?, Option.isSome_iff_exists] at h

theorem values_eq (t : Std.ExtTreeMap α β) : t.values = t.toList.map (·.2) := by
  obtain ⟨⟨t⟩⟩ := t
  induction t using Quotient.inductionOn with
  | h t =>
    change t.inner.values = (Std.DTreeMap.Internal.Impl.Const.toList t.inner).map _
    rw [Std.DTreeMap.Internal.Impl.values_eq_map_snd,
      Std.DTreeMap.Internal.Impl.Const.toList_eq_toListModel_map, List.map_map]
    rfl

variable [Std.LawfulEqOrd α]

theorem nodup_keys_toList (t : Std.ExtTreeMap α β) : (t.toList.map Prod.fst).Nodup := by
  rw [List.Nodup, List.pairwise_map]
  exact Std.ExtTreeMap.distinct_keys_toList.imp fun hne heq =>
    hne (Std.LawfulEqCmp.compare_eq_iff_eq.2 heq)

variable [DecidableEq α]

theorem getElem?_insert_eq (t : Std.ExtTreeMap α β) (k k' : α) (v : β) :
    (t.insert k v)[k']? = if k = k' then some v else t[k']? := by
  rw [Std.ExtTreeMap.getElem?_insert]
  simp only [Std.LawfulEqCmp.compare_eq_iff_eq]

theorem getElem?_erase_eq (t : Std.ExtTreeMap α β) (k k' : α) :
    (t.erase k)[k']? = if k = k' then none else t[k']? := by
  rw [Std.ExtTreeMap.getElem?_erase]
  simp only [Std.LawfulEqCmp.compare_eq_iff_eq]

theorem getElem?_insertIfNew_eq (t : Std.ExtTreeMap α β) (k k' : α) (v : β) :
    (t.insertIfNew k v)[k']? = if k = k' then some (t[k']?.getD v) else t[k']? := by
  rw [Std.ExtTreeMap.getElem?_insertIfNew]
  simp only [Std.LawfulEqCmp.compare_eq_iff_eq, Std.ExtTreeMap.mem_iff_isSome_getElem?]
  by_cases heq : k = k'
  · subst heq
    cases t[k]? <;> simp
  · simp [heq]

theorem getElem?_modify_eq (t : Std.ExtTreeMap α β) (k k' : α) (f : β → β) :
    (t.modify k f)[k']? = t[k']?.map fun v => if k = k' then f v else v := by
  rw [Std.ExtTreeMap.getElem?_modify]
  simp only [Std.LawfulEqCmp.compare_eq_iff_eq]
  split
  next heq => rw [heq]
  next => simp

theorem insert_eq_modify (h : t[k]? = some v) : t.insert k (f v) = t.modify k f := by
  apply Std.ExtTreeMap.ext_getElem?
  intro k'
  rw [getElem?_insert_eq, getElem?_modify_eq]
  split
  next heq => rw [← heq, h, Option.map_some]
  next => simp

theorem modify_eq_self (h : t[k]? = some v) (hf : f v = v) : t.modify k f = t := by
  apply Std.ExtTreeMap.ext_getElem?
  intro k'
  rw [getElem?_modify_eq]
  split
  next heq => rw [← heq, h, Option.map_some, hf]
  next => simp

theorem insert_insert (t : Std.ExtTreeMap α β) (k : α) (v v' : β) :
    (t.insert k v).insert k v' = t.insert k v' := by
  apply Std.ExtTreeMap.ext_getElem?
  intro k'
  simp only [getElem?_insert_eq]
  split <;> rfl

theorem find?_toList (t : Std.ExtTreeMap α β) (k : α) :
    t.toList.find? (·.1 == k) = t[k]?.map (k, ·) := by
  have hp : (fun entry : α × β => entry.1 == k) = fun entry => compare entry.1 k == .eq := by
    funext entry
    rw [Bool.eq_iff_iff]
    simp [Std.LawfulEqCmp.compare_eq_iff_eq]
  rw [hp]
  cases h : t[k]? with
  | none =>
    rw [Option.map_none, Std.ExtTreeMap.find?_toList_eq_none_iff_contains_eq_false,
      Std.ExtTreeMap.contains_eq_isSome_getElem?, h, Option.isSome_none]
  | some v =>
    rw [Option.map_some,
      Std.ExtTreeMap.find?_toList_eq_some_iff_getKey?_eq_some_and_getElem?_eq_some]
    exact ⟨Std.ExtTreeMap.getKey?_eq_some (Std.ExtTreeMap.contains_iff_mem.1
      (contains_of_getElem? h)), h⟩

end TraceCoverage.TreeMap

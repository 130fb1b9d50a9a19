import TraceCoverage.Listing.Reader
import TraceCoverage.Proofs.Coverage.Bytes

/-!
# What the lines of a symbol set

The flags that lines set at an address and the target that they note there, as functions of the
lines alone. The map and the targets that a symbol brings into its executable are read off them.
-/

namespace TraceCoverage

namespace CodeLine

variable {l : CodeLine} {lines : List CodeLine} {a : Address}

def flagsAt : List CodeLine → Address → Flags
  | [], _ => Flags.empty
  | l :: rest, a => (if l.address = some a then l.flags else Flags.empty).union (flagsAt rest a)

/-- The target that lines note for an address. The last line that knows one decides. -/
def targetAt? : List CodeLine → Address → Option Address
  | [], _ => none
  | l :: rest, a => (targetAt? rest a).or (if l.address = some a then l.target? else none)

/-! ## Flags -/

theorem isStart_flags (l : CodeLine) : l.flags.isStart = true := by
  unfold flags
  cases l.isBranch <;> cases l.isNop <;> rfl

theorem isBranch_flags (l : CodeLine) : l.flags.isBranch = l.isBranch := by
  unfold flags
  cases l.isBranch <;> cases l.isNop <;> rfl

theorem isNop_flags (l : CodeLine) : l.flags.isNop = l.isNop := by
  unfold flags
  cases l.isBranch <;> cases l.isNop <;> rfl

theorem meets_flags (l : CodeLine) {f : Flags} (hstart : Flags.start.meets f = false)
    (hbranch : Flags.branch.meets f = false) (hnop : Flags.nop.meets f = false) :
    l.flags.meets f = false := by
  change ((Flags.start.union _).union _).meets f = false
  rw [Flags.meets_union, Flags.meets_union, hstart]
  cases l.isBranch <;> cases l.isNop <;> simp [hbranch, hnop]

theorem flagsAt_eq_empty (h : ∀ l ∈ lines, l.address ≠ some a) : flagsAt lines a = Flags.empty := by
  induction lines with
  | nil => rfl
  | cons l rest ih =>
    obtain ⟨hl, hrest⟩ := List.forall_mem_cons.1 h
    rw [flagsAt, if_neg hl, ih hrest, Flags.empty_union]

section

variable {p : Flags → Bool} (hunion : ∀ f g, p (f.union g) = (p f || p g))
  (hempty : p Flags.empty = false)
include hunion hempty

theorem flagsAt_iff : p (flagsAt lines a) = true ↔
    ∃ l ∈ lines, l.address = some a ∧ p l.flags = true := by
  induction lines with
  | nil => simp [flagsAt, hempty]
  | cons l rest ih =>
    simp only [flagsAt, hunion, Bool.or_eq_true, ih, List.mem_cons, exists_eq_or_imp]
    split <;> simp_all

end

theorem isStart_flagsAt :
    (flagsAt lines a).isStart = true ↔ ∃ l ∈ lines, l.address = some a := by
  rw [flagsAt_iff Flags.isStart_union (by decide)]
  simp [isStart_flags]

theorem isBranch_flagsAt :
    (flagsAt lines a).isBranch = true ↔ ∃ l ∈ lines, l.address = some a ∧ l.isBranch = true := by
  rw [flagsAt_iff Flags.isBranch_union (by decide)]
  simp [isBranch_flags]

theorem isNop_flagsAt :
    (flagsAt lines a).isNop = true ↔ ∃ l ∈ lines, l.address = some a ∧ l.isNop = true := by
  rw [flagsAt_iff Flags.isNop_union (by decide)]
  simp [isNop_flags]

theorem meets_flagsAt (lines : List CodeLine) (a : Address) {f : Flags}
    (hstart : Flags.start.meets f = false) (hbranch : Flags.branch.meets f = false)
    (hnop : Flags.nop.meets f = false) : (flagsAt lines a).meets f = false := by
  induction lines with
  | nil => exact Flags.empty_meets f
  | cons l rest ih =>
    rw [flagsAt, Flags.meets_union, ih, Bool.or_false]
    split
    next => exact meets_flags l hstart hbranch hnop
    next => exact Flags.empty_meets f

theorem isExecuted_flagsAt (lines : List CodeLine) (a : Address) :
    (flagsAt lines a).isExecuted = false :=
  meets_flagsAt lines a (by decide) (by decide) (by decide)

theorem isTaken_flagsAt (lines : List CodeLine) (a : Address) :
    (flagsAt lines a).isTaken = false :=
  meets_flagsAt lines a (by decide) (by decide) (by decide)

theorem isNotTaken_flagsAt (lines : List CodeLine) (a : Address) :
    (flagsAt lines a).isNotTaken = false :=
  meets_flagsAt lines a (by decide) (by decide) (by decide)

/-! ## Targets -/

theorem targetAt?_append (lines lines' : List CodeLine) (a : Address) :
    targetAt? (lines ++ lines') a = (targetAt? lines' a).or (targetAt? lines a) := by
  induction lines with
  | nil => simp [targetAt?]
  | cons l rest ih => rw [List.cons_append, targetAt?, ih, targetAt?, Option.or_assoc]

end CodeLine

def ResolvedSymbol.last (s : ResolvedSymbol) : Address := s.base + (s.size - 1)

namespace Listing

open CodeLine

variable {m : CoverageMap} {lines : List CodeLine}

@[simp]
theorem low_markMap (m : CoverageMap) (lines : List CodeLine) : (markMap m lines).low = m.low := by
  unfold markMap
  induction lines generalizing m with
  | nil => rfl
  | cons l rest ih =>
    rw [List.foldl_cons, ih]
    cases l.address <;> simp

@[simp]
theorem size_markMap (m : CoverageMap) (lines : List CodeLine) :
    (markMap m lines).size = m.size := by
  unfold markMap
  induction lines generalizing m with
  | nil => rfl
  | cons l rest ih =>
    rw [List.foldl_cons, ih]
    cases l.address <;> simp

theorem byte_markMap {i : Nat} (h : i < m.size) :
    (markMap m lines).byte i = (m.byte i).union (flagsAt lines (m.address i)) := by
  unfold markMap
  induction lines generalizing m with
  | nil => simp [flagsAt]
  | cons l rest ih =>
    rw [List.foldl_cons, flagsAt]
    cases ha : l.address with
    | none => simp [ih h]
    | some a =>
      have hat : (m.set a l.flags).address i = m.address i := by simp [CoverageMap.address]
      have hoffset : m.offset? a = some i ↔ a = m.address i :=
        ⟨CoverageMap.eq_address_of_offset?, fun h' => h' ▸ CoverageMap.offset?_address h⟩
      rw [Option.map_some, Option.getD_some, ih (by simpa using h), hat, CoverageMap.byte_set]
      simp only [hoffset, Option.some.injEq]
      split <;> simp [Flags.union_assoc]

theorem noteTargets_spec (e : Executable) (lines : List CodeLine) :
    ∃ targets, noteTargets e lines = { e with targets } ∧
      ∀ a, targets[a]? = (targetAt? lines a).or e.targets[a]? := by
  unfold noteTargets
  induction lines generalizing e with
  | nil => exact ⟨e.targets, rfl, fun a => by simp [targetAt?]⟩
  | cons l rest ih =>
    rw [List.foldl_cons]
    cases ha : l.address with
    | none =>
      obtain ⟨targets, heq, hget⟩ := ih e
      exact ⟨targets, heq, fun a => by simp [hget, targetAt?, ha]⟩
    | some a =>
      cases ht : l.target? with
      | none =>
        obtain ⟨targets, heq, hget⟩ := ih e
        exact ⟨targets, heq, fun b => by simp [hget, targetAt?, ht]⟩
      | some target =>
        obtain ⟨targets, heq, hget⟩ := ih (e.setTarget a target)
        refine ⟨targets, heq, fun b => ?_⟩
        rw [hget, targetAt?, ha, ht, Executable.setTarget, Std.ExtTreeMap.getElem?_insert]
        simp only [Std.LawfulEqCmp.compare_eq_iff_eq, Option.some.injEq, Option.or_assoc]
        split <;> rfl

end Listing

end TraceCoverage

import TraceCoverage.Listing.Padding
import TraceCoverage.Proofs.Text.Scanning
import Mathlib.Data.List.Perm.Basic

/-!
# What trimming takes away

A body with code in it can be cut in one way only into what stays, the padding that ends in the last
instruction, and the text behind it. Trimming takes the padding out and adds up its bytes.
-/

namespace TraceCoverage.Padding

variable {lines before run after : List CodeLine} {l : CodeLine}

/-! ## The parts of a body -/

def trailing (lines : List CodeLine) : List CodeLine :=
  (lines.reverse.takeWhile (!·.isInstruction)).reverse

def removed (lines : List CodeLine) : List CodeLine :=
  ((lines.reverse.dropWhile (!·.isInstruction)).takeWhile (·.isNop)).reverse

def leading (lines : List CodeLine) : List CodeLine :=
  ((lines.reverse.dropWhile (!·.isInstruction)).dropWhile (·.isNop)).reverse

theorem leading_append_removed (lines : List CodeLine) :
    leading lines ++ removed lines = (lines.reverse.dropWhile (!·.isInstruction)).reverse := by
  rw [leading, removed, ← List.reverse_append, List.takeWhile_append_dropWhile]

theorem append_parts (lines : List CodeLine) :
    leading lines ++ removed lines ++ trailing lines = lines := by
  rw [leading_append_removed, trailing, ← List.reverse_append, List.takeWhile_append_dropWhile,
    List.reverse_reverse]

theorem not_isInstruction_of_mem_trailing (hl : l ∈ trailing lines) : l.isInstruction = false := by
  simpa using List.mem_takeWhile_imp (List.mem_reverse.1 hl)

theorem isNop_of_mem_removed (hl : l ∈ removed lines) : l.isNop = true := by
  simpa using List.mem_takeWhile_imp (List.mem_reverse.1 hl)

theorem trim_eq (lines : List CodeLine) :
    trim lines = (leading lines ++ trailing lines,
      ((removed lines).map (·.nopSize)).foldr (· + ·) 0) := by
  have : LeftCommutative (fun a b : Nat => a + b) := ⟨Nat.add_left_comm⟩
  rw [leading, trailing, removed, ← List.reverse_append, List.map_reverse,
    (List.reverse_perm _).foldr_eq 0]
  rfl

theorem toNat_bytes (lines : List CodeLine) :
    (bytes lines).toNat =
      min (((removed lines).map (·.nopSize)).foldr (· + ·) 0) 0xffffffff := by
  rw [bytes, trim_eq, UInt32.toNat_ofNat_of_lt']
  exact Nat.lt_of_le_of_lt (Nat.min_le_right _ _) (by decide)

theorem trim_sublist (lines : List CodeLine) : (trim lines).1.Sublist lines := by
  rw [trim_eq]
  conv_rhs => rw [← append_parts lines]
  exact (List.sublist_append_left _ _).append (List.Sublist.refl _)

theorem mem_trim (hl : l ∈ lines) (hnop : l.isNop = false) : l ∈ (trim lines).1 := by
  rw [← append_parts lines, List.mem_append, List.mem_append] at hl
  rw [trim_eq, List.mem_append]
  rcases hl with (hl | hl) | hl
  · exact .inl hl
  · rw [isNop_of_mem_removed hl] at hnop
    cases hnop
  · exact .inr hl

/-! ## One way to cut -/

theorem parts_append (hbefore : ∀ l ∈ before.getLast?, l.isNop = false)
    (hrun : ∀ l ∈ run, l.isNop = true)
    (hlast : ∀ l ∈ (before ++ run).getLast?, l.isInstruction = true)
    (hafter : ∀ l ∈ after, l.isInstruction = false) :
    leading (before ++ run ++ after) = before ∧ removed (before ++ run ++ after) = run ∧
      trailing (before ++ run ++ after) = after := by
  have htext : ∀ l ∈ after.reverse, (!l.isInstruction) = true := fun l hl => by
    rw [hafter l (List.mem_reverse.1 hl)]
    rfl
  have hend : ∀ l ∈ (run.reverse ++ before.reverse).head?, (!l.isInstruction) = false := by
    rw [← List.reverse_append, List.head?_reverse]
    intro l hl
    rw [hlast l hl]
    rfl
  have hnops : ∀ l ∈ run.reverse, l.isNop = true := fun l hl => hrun l (List.mem_reverse.1 hl)
  have hstop : ∀ l ∈ before.reverse.head?, l.isNop = false := by
    rwa [List.head?_reverse]
  rw [leading, removed, trailing, List.reverse_append, List.reverse_append,
    Text.dropWhile_append_of_head htext hend, Text.takeWhile_append_of_head htext hend,
    Text.dropWhile_append_of_head hnops hstop, Text.takeWhile_append_of_head hnops hstop,
    List.reverse_reverse, List.reverse_reverse, List.reverse_reverse]
  exact ⟨rfl, rfl, rfl⟩

@[ext]
structure Parts where
  before : List CodeLine
  run : List CodeLine
  after : List CodeLine

/-- No instruction follows the run, which has nops only, and ends in an instruction unless it is
empty. What comes before it does not end in a nop, and the run, or else what comes before it, ends in
the last instruction. -/
structure Parts.Cut (p : Parts) (lines : List CodeLine) : Prop where
  eq : p.before ++ p.run ++ p.after = lines
  after : ∀ l ∈ p.after, l.isInstruction = false
  run : ∀ l ∈ p.run, l.isNop = true
  ends : ∀ l ∈ p.run.getLast?, l.isInstruction = true
  before : ∀ l ∈ p.before.getLast?, l.isNop = false
  last : (p.before ++ p.run).getLast? = (lines.filter (·.isInstruction)).getLast?

theorem last_instruction (lines : List CodeLine) :
    (lines.filter (·.isInstruction)).getLast? =
      (lines.reverse.dropWhile (!·.isInstruction)).head? := by
  rw [← List.find?_eq_head?_dropWhile_not, ← List.head?_filter, List.filter_reverse,
    List.head?_reverse]

theorem isInstruction_of_last (hl : l ∈ (lines.filter (·.isInstruction)).getLast?) :
    l.isInstruction = true :=
  (List.mem_filter.1 (List.mem_of_getLast? hl)).2

theorem cut_parts (lines : List CodeLine) :
    Parts.Cut ⟨leading lines, removed lines, trailing lines⟩ lines where
  eq := append_parts lines
  after _ hl := not_isInstruction_of_mem_trailing hl
  run _ hl := isNop_of_mem_removed hl
  ends l hl := by
    rw [removed, List.getLast?_reverse, List.head?_takeWhile, Option.mem_def,
      Option.filter_eq_some_iff, ← last_instruction] at hl
    exact isInstruction_of_last hl.1
  before l hl := by
    rw [leading, List.getLast?_reverse, Option.mem_def] at hl
    have hstop := List.head?_dropWhile_not (·.isNop) (lines.reverse.dropWhile (!·.isInstruction))
    rw [hl] at hstop
    exact hstop
  last := by
    rw [leading_append_removed, List.getLast?_reverse, last_instruction]

theorem Parts.Cut.eq_parts {p : Parts} (h : p.Cut lines) :
    p = ⟨leading lines, removed lines, trailing lines⟩ := by
  obtain ⟨hbefore, hrun, hafter⟩ := parts_append h.before h.run
    (fun l hl => isInstruction_of_last (h.last ▸ hl)) h.after
  rw [h.eq] at hbefore hrun hafter
  exact Parts.ext hbefore.symm hrun.symm hafter.symm

theorem Parts.Cut.trim_eq {p : Parts} (h : p.Cut lines) : (trim lines).1 = p.before ++ p.after ∧
    (bytes lines).toNat = min ((p.run.map (·.nopSize)).foldr (· + ·) 0) 0xffffffff := by
  rw [h.eq_parts]
  exact ⟨by rw [Padding.trim_eq], toNat_bytes lines⟩

theorem trim_of_text (h : ∀ l ∈ lines, l.isInstruction = false) :
    (trim lines).1 = lines ∧ bytes lines = 0 := by
  have hnone : lines.filter (·.isInstruction) = [] :=
    List.filter_eq_nil_iff.2 fun l hl => by simp [h l hl]
  have hcut : Parts.Cut ⟨[], [], lines⟩ lines :=
    ⟨rfl, h, by simp, by simp, by simp, by rw [hnone]; rfl⟩
  obtain ⟨htrim, hbytes⟩ := hcut.trim_eq
  exact ⟨htrim, UInt32.toNat_inj.1 hbytes⟩

/-- Each body is cut in one way only, and trimming leaves what is before the run and behind it, in
this order. The bytes of the run are added up to the largest number of 32 bits. A body without
instructions stays as it is. -/
theorem trim_decomposition (lines : List CodeLine) :
    (∃! p : Parts, p.Cut lines) ∧
    (∀ p : Parts, p.Cut lines → (trim lines).1 = p.before ++ p.after ∧
      (bytes lines).toNat = min ((p.run.map (·.nopSize)).foldr (· + ·) 0) 0xffffffff) ∧
    ((∀ l ∈ lines, l.isInstruction = false) → (trim lines).1 = lines ∧ bytes lines = 0) :=
  ⟨⟨_, cut_parts lines, fun _ hp => hp.eq_parts⟩, fun _ hp => hp.trim_eq, trim_of_text⟩

def overfull : List CodeLine :=
  [{ address := some 0x100, text := "insn" }, { address := some 0x101, text := "nop", nop := some 1 },
    { text := "pad.c:1" }, { text := "fill", nop := some 3 },
    { address := some 0x102, text := "nop", nop := some 0xffffffff },
    { address := some 0x104, text := "nop", nop := some 2 }, { text := "end" }]

theorem trim_decomposition_overfull :
    (trim overfull).1.map (·.text) = ["insn", "nop", "pad.c:1", "end"] ∧
      bytes overfull = 0xffffffff ∧ (trim (overfull.drop 6)).1 = overfull.drop 6 := by
  have hcut : Parts.Cut ⟨overfull.take 3, (overfull.drop 3).take 3, overfull.drop 6⟩ overfull :=
    ⟨rfl, by decide, by decide, by decide, by decide, by decide⟩
  obtain ⟨htrim, hbytes⟩ := (trim_decomposition overfull).2.1 _ hcut
  refine ⟨by rw [htrim]; decide, UInt32.toNat_inj.1 (hbytes.trans (by decide)), ?_⟩
  exact ((trim_decomposition (overfull.drop 6)).2.2 (by decide)).1

end TraceCoverage.Padding

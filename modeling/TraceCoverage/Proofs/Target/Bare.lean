import TraceCoverage.Proofs.Target.Columns
import TraceCoverage.Target.Basic

/-!
# Lines without an encoding

Where the encoding is left out, the instruction stands in the only column. It is read as it was
printed exactly if it has no tab: what stands before a tab is taken for an encoding, and a branch
whose operands are set off by a tab is no branch then.
-/

namespace TraceCoverage

open Text

/-! ## One column -/

namespace InsnText

variable {i : InsnText}

theorem not_isEncoding_text (h : ∃ c ∈ i.mnemonic, isHexDigit c = false) :
    InsnLine.isEncoding i.text = false := by
  have hwords : ∃ rest, words i.text = i.mnemonic :: rest := by
    unfold text
    split
    next => exact ⟨[], by rw [List.append_nil, words_eq_singleton i.mnemonic_ne i.mnemonic_solid]⟩
    next =>
      obtain ⟨c, more, hgap⟩ := List.exists_cons_of_ne_nil i.gap_ne
      have hc : isBlank c = true := i.gap_blank c (by simp [hgap])
      rw [hgap, List.cons_append, words_append i.mnemonic_ne i.mnemonic_solid hc]
      exact ⟨_, rfl⟩
  obtain ⟨rest, hrest⟩ := hwords
  obtain ⟨c, hc, hdigit⟩ := h
  have hall : i.mnemonic.all isHexDigit = false := List.all_eq_false.2 ⟨c, hc, by simp [hdigit]⟩
  rw [InsnLine.isEncoding, hrest]
  simp [hall]

end InsnText

namespace InsnLine

variable {o : OffsetColumn} {i : InsnText} {before after : List Char}

theorem ofChars?_bare (h : ∃ c ∈ i.mnemonic, isHexDigit c = false) (htab : '\t' ∉ i.text) :
    ofChars? (o.text ++ i.text) =
      some
        { offset := o.offset, encoding := [], mnemonic := i.mnemonic, operands := i.operands } := by
  have hplain : ¬ isEncoding i.text = true := by
    rw [i.not_isEncoding_text h]
    exact Bool.false_ne_true
  rw [ofChars?_append, columns_of_not_mem htab, if_neg hplain, i.trim_text, i.splitInsn_text]

theorem ofChars?_tabbed (h : i.text = before ++ '\t' :: after) (hbefore : '\t' ∉ before) :
    ∃ insn, ofChars? (o.text ++ i.text) = some insn ∧ insn.encoding = trim before ∧
      insn.encoding ≠ [] ∧ (insn.mnemonic, insn.operands) = splitInsn (trim after) := by
  refine ⟨_, ofChars?_append o i.text, ?_⟩
  rw [h, columns_tab hbefore]
  refine ⟨rfl, fun hnil => ?_, rfl⟩
  -- The text starts with the mnemonic, so that the part before the tab has more than blanks.
  obtain ⟨c, more, hmnemonic⟩ := List.exists_cons_of_ne_nil i.mnemonic_ne
  have hsolid : isBlank c = false := i.mnemonic_solid c (by simp [hmnemonic])
  rw [InsnText.text, hmnemonic] at h
  cases before with
  | nil =>
    obtain rfl : c = '\t' := (List.cons.inj h).1
    exact absurd hsolid (by decide)
  | cons d before =>
    obtain rfl : c = d := (List.cons.inj h).1
    rw [trim_eq_nil_iff.1 hnil c List.mem_cons_self] at hsolid
    cases hsolid

end InsnLine

/-! ## What targets say of it -/

namespace Architecture

variable {insn insn' : InsnLine}

theorem isSome_nopSize_congr (a : Architecture) (hmnemonic : insn.mnemonic = insn'.mnemonic)
    (hoperands : insn.operands = insn'.operands) :
    (a.nopSize insn).isSome = (a.nopSize insn').isSome := by
  unfold nopSize
  rw [hmnemonic, hoperands]
  dsimp only
  split <;> rfl

end Architecture

namespace InsnLine

/-- A line without an encoding is read as it was printed exactly if its instruction has no tab.
Then all targets take it for a branch, or for padding, exactly if they do so with any encoding. -/
theorem ofChars?_bare_iff (o : OffsetColumn) (i : InsnText)
    (h : ∃ c ∈ i.mnemonic, isHexDigit c = false) :
    (ofChars? (o.text ++ i.text) =
        some
          { offset := o.offset, encoding := [], mnemonic := i.mnemonic, operands := i.operands } ↔
      '\t' ∉ i.text) ∧
    ('\t' ∉ i.text → ∀ (name : String) (a : Architecture) (e : EncodingColumn),
      let t := Target.ofArchitecture name a
      let bare := o.text ++ i.text
      let full := o.text ++ (e.text ++ '\t' :: i.text)
      t.isBranchLine bare = t.isBranchLine full ∧
        (t.nopSize bare).isSome = (t.nopSize full).isSome) := by
  refine ⟨⟨fun hread htab => ?_, ofChars?_bare h⟩, fun htab name a e => ?_⟩
  · obtain ⟨before, after, htext, hbefore⟩ := List.eq_append_cons_of_mem htab
    obtain ⟨insn, hinsn, _, hne, _⟩ := ofChars?_tabbed (o := o) htext hbefore
    obtain rfl := Option.some.inj (hinsn.symm.trans hread)
    exact hne rfl
  · have hbare := ofChars?_bare (o := o) h htab
    have hfull := (ofChars?_printed o e i).1
    refine ⟨?_, ?_⟩
    · rw [Target.isBranchLine, Target.isBranchLine, hbare, hfull]
      rfl
    · change ((ofChars? _).bind a.nopSize).isSome = ((ofChars? _).bind a.nopSize).isSome
      rw [hbare, hfull]
      exact a.isSome_nopSize_congr rfl rfl

def branchIfEqual (gap : Char) (hgap : isBlank gap = true) : InsnText where
  mnemonic := ['b', 'e', 'q']
  gap := [gap]
  operands := "a0,a1,80000018 <f+0x8>".toList
  mnemonic_ne := by simp
  mnemonic_solid := by simp [isBlank]
  gap_ne := by simp
  gap_blank := by simpa using hgap
  operands_trimmed := by decide

def branchOffset : OffsetColumn := .ofOffset 0x80000010

def branchEncoding : EncodingColumn where
  row := .last (.ofBytes [0x00, 0xb5, 0x04, 0x63] (by decide))
  after := 10

theorem ofChars?_bare_iff_branch :
    (Target.ofArchitecture "riscv64" .riscV).isBranchLine
      (branchOffset.text ++ (branchIfEqual ' ' (by decide)).text) = true := by
  have htab : '\t' ∉ (branchIfEqual ' ' (by decide)).text := by decide
  obtain ⟨hbranch, _⟩ :=
    (ofChars?_bare_iff branchOffset (branchIfEqual ' ' (by decide)) ⟨'q', by decide, by decide⟩).2
      htab "riscv64" .riscV branchEncoding
  rw [hbranch]
  decide +kernel

/-- Behind a tab the operands are taken for the instruction, and the branch for its encoding. -/
theorem branch_lost_to_tab :
    let t := Target.ofArchitecture "riscv64" .riscV
    let i := branchIfEqual '\t' (by decide)
    (∃ c ∈ i.mnemonic, isHexDigit c = false) ∧
      ofChars? (branchOffset.text ++ i.text) =
        some
          { offset := 0x80000010
            encoding := "beq".toList
            mnemonic := "a0,a1,80000018".toList
            operands := "<f+0x8>".toList } ∧
      t.isBranchLine (branchOffset.text ++ (branchEncoding.text ++ '\t' :: i.text)) = true ∧
      t.isBranchLine (branchOffset.text ++ i.text) = false := by
  refine ⟨⟨'q', by decide, by decide⟩, ?_⟩
  decide +kernel

end InsnLine

end TraceCoverage

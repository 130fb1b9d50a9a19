import TraceCoverage.Proofs.Text.Scanning
import TraceCoverage.Target.InsnLine
import Mathlib.Data.List.Basic

/-!
# Lines in columns

An instruction line is printed from an offset, the bytes of an encoding and an instruction.
Splitting finds these parts again, in whatever words the bytes stand and whatever the operands look
like, and so it does on a line that only goes on with an encoding.
-/

namespace TraceCoverage

open Text

/-! ## The offset -/

/-- How a line starts: an offset in digits of either case, any zeros in front, a colon and a tab. -/
structure OffsetColumn where
  lead : List Char := []
  digits : List Char
  offset : UInt32
  lead_blank : ∀ c ∈ lead, isBlank c = true
  digits_hex : isHex digits = true
  value : hexValue digits = offset.toNat

namespace OffsetColumn

def text (o : OffsetColumn) : List Char := o.lead ++ (o.digits ++ [':', '\t'])

theorem trimStart_text_append (o : OffsetColumn) (rest : List Char) :
    trimStart (o.text ++ rest) = o.digits ++ ':' :: '\t' :: rest := by
  obtain ⟨hne, hhex⟩ := isHex_iff.1 o.digits_hex
  rw [text, List.append_assoc, trimStart_append o.lead_blank, List.append_assoc]
  refine trimStart_eq_self_iff.2 fun c hc => ?_
  rw [List.head?_append_of_ne_nil _ hne] at hc
  exact not_isBlank_of_isHexDigit (hhex c (List.mem_of_mem_head? hc))

def ofOffset (offset : UInt32) : OffsetColumn where
  digits := (toHex offset.toNat).toList
  offset
  lead_blank := isBlank_of_mem_nil
  digits_hex := (hexValue_toHex _).1
  value := (hexValue_toHex _).2

end OffsetColumn

/-! ## The encoding -/

inductive Dumps : List UInt8 → List Char → Prop
  | nil : Dumps [] []
  | cons {b : UInt8} {x y : Char} {bytes : List UInt8} {digits : List Char} :
    isHex [x, y] = true → hexValue [x, y] = b.toNat → Dumps bytes digits →
      Dumps (b :: bytes) (x :: y :: digits)

namespace Dumps

variable {bytes : List UInt8} {digits : List Char}

theorem length_eq (h : Dumps bytes digits) : digits.length = 2 * bytes.length := by
  induction h with
  | nil => rfl
  | cons _ _ _ ih =>
    rw [List.length_cons, List.length_cons, List.length_cons, ih]
    omega

theorem isHexDigit (h : Dumps bytes digits) : ∀ c ∈ digits, Text.isHexDigit c = true := by
  induction h with
  | nil => simp
  | cons hhex _ _ ih =>
    have hpair := (isHex_iff.1 hhex).2
    refine List.forall_mem_cons.2 ⟨hpair _ (by simp), List.forall_mem_cons.2 ⟨?_, ih⟩⟩
    exact hpair _ (by simp)

theorem of_digitChar (bytes : List UInt8) :
    Dumps bytes
      (bytes.flatMap fun b => [Nat.digitChar (b.toNat / 16), Nat.digitChar (b.toNat % 16)]) := by
  induction bytes with
  | nil => exact .nil
  | cons b rest ih =>
    have hlt : b.toNat < 256 := b.toNat_lt
    have hhigh : b.toNat / 16 < 16 := by omega
    have hlow : b.toNat % 16 < 16 := by omega
    refine .cons ?_ ?_ ih
    · simp [isHex, isHexDigit_digitChar _ hhigh, isHexDigit_digitChar _ hlow]
    · simp only [hexValue, List.foldl_cons, List.foldl_nil, hexDigit_digitChar _ hhigh,
        hexDigit_digitChar _ hlow]
      omega

end Dumps

structure HexWord where
  bytes : List UInt8
  digits : List Char
  bytes_ne : bytes ≠ []
  dumps : Dumps bytes digits

namespace HexWord

variable (w : HexWord)

def ofBytes (bytes : List UInt8) (h : bytes ≠ []) : HexWord where
  bytes
  digits := bytes.flatMap fun b => [Nat.digitChar (b.toNat / 16), Nat.digitChar (b.toNat % 16)]
  bytes_ne := h
  dumps := .of_digitChar bytes

theorem digits_ne : w.digits ≠ [] := by
  intro hnil
  have hlength := w.dumps.length_eq
  have hpos := List.length_pos_iff.2 w.bytes_ne
  rw [hnil, List.length_nil] at hlength
  omega

theorem not_isBlank : ∀ c ∈ w.digits, isBlank c = false := fun c hc =>
  not_isBlank_of_isHexDigit (w.dumps.isHexDigit c hc)

end HexWord

/-- Bytes in words, with one space and maybe some more between two of them. -/
inductive HexRow where
  | last (w : HexWord)
  | cons (w : HexWord) (more : Nat) (rest : HexRow)

namespace HexRow

def text : HexRow → List Char
  | last w => w.digits
  | cons w more rest => w.digits ++ ' ' :: (List.replicate more ' ' ++ rest.text)

def bytes : HexRow → List UInt8
  | last w => w.bytes
  | cons w _ rest => w.bytes ++ rest.bytes

def tokens : HexRow → List (List Char)
  | last w => [w.digits]
  | cons w _ rest => w.digits :: rest.tokens

theorem mem_text (r : HexRow) : ∀ c ∈ r.text, c = ' ' ∨ isHexDigit c = true := by
  induction r with
  | last w => exact fun c hc => .inr (w.dumps.isHexDigit c hc)
  | cons w more rest ih =>
    intro c hc
    rw [text, List.mem_append, List.mem_cons, List.mem_append] at hc
    rcases hc with hc | rfl | hc | hc
    · exact .inr (w.dumps.isHexDigit c hc)
    · exact .inl rfl
    · exact .inl (List.mem_replicate.1 hc).2
    · exact ih c hc

theorem trim_text (r : HexRow) : trim r.text = r.text := by
  rw [trim_eq_self_iff, trimStart_eq_self_iff, trimEnd_eq_self_iff]
  induction r with
  | last w =>
    exact ⟨fun c hc => w.not_isBlank c (List.mem_of_mem_head? hc),
      fun c hc => w.not_isBlank c (List.mem_of_mem_getLast? hc)⟩
  | cons w more rest ih =>
    have hrest : rest.text ≠ [] := by
      cases rest with
      | last w' => exact w'.digits_ne
      | cons w' _ _ => simp [text]
    refine ⟨fun c hc => ?_, fun c hc => ih.2 c ?_⟩
    · rw [text, List.head?_append_of_ne_nil _ w.digits_ne] at hc
      exact w.not_isBlank c (List.mem_of_mem_head? hc)
    · rwa [text, ← List.cons_append, ← List.append_assoc,
        List.getLast?_append_of_ne_nil _ hrest] at hc

theorem words_text (r : HexRow) (n : Nat) : words (r.text ++ List.replicate n ' ') = r.tokens := by
  have hspaces : ∀ n, words (List.replicate n ' ') = [] := fun n => by
    have h := words_append_of_blank (isBlank_of_mem_replicate (n := n)) []
    rwa [List.append_nil] at h
  induction r with
  | last w =>
    cases n with
    | zero =>
      rw [List.replicate_zero, List.append_nil]
      exact words_eq_singleton w.digits_ne w.not_isBlank
    | succ n =>
      rw [List.replicate_succ, text, words_append w.digits_ne w.not_isBlank (by decide), hspaces]
      rfl
  | cons w more rest ih =>
    rw [text, List.append_assoc, List.cons_append,
      words_append w.digits_ne w.not_isBlank (by decide), List.append_assoc,
      words_append_of_blank isBlank_of_mem_replicate, ih]
    rfl

theorem of_mem_tokens (r : HexRow) :
    ∀ t ∈ r.tokens, t.length % 2 = 0 ∧ ∀ c ∈ t, isHexDigit c = true := by
  have hword : ∀ w : HexWord, w.digits.length % 2 = 0 ∧ ∀ c ∈ w.digits, isHexDigit c = true :=
    fun w => ⟨by rw [w.dumps.length_eq]; omega, w.dumps.isHexDigit⟩
  induction r with
  | last w => exact List.forall_mem_singleton.2 (hword w)
  | cons w _ rest ih => exact List.forall_mem_cons.2 ⟨hword w, ih⟩

theorem countP_text (r : HexRow) : r.text.countP isHexDigit = 2 * r.bytes.length := by
  have hword : ∀ w : HexWord, w.digits.countP isHexDigit = 2 * w.bytes.length := fun w => by
    rw [List.countP_eq_length.2 w.dumps.isHexDigit, w.dumps.length_eq]
  induction r with
  | last w => exact hword w
  | cons w more rest ih =>
    have hspaces : (List.replicate more ' ').countP isHexDigit = 0 := by
      rw [List.countP_replicate, if_neg (by decide)]
    rw [text, List.countP_append, hword, List.countP_cons_of_neg (by decide), List.countP_append,
      hspaces, ih, bytes, List.length_append]
    omega

end HexRow

structure EncodingColumn where
  before : Nat := 0
  row : HexRow
  after : Nat := 0

namespace EncodingColumn

variable (e : EncodingColumn)

def text : List Char :=
  List.replicate e.before ' ' ++ e.row.text ++ List.replicate e.after ' '

theorem trim_text : trim e.text = e.row.text :=
  trim_append_append isBlank_of_mem_replicate isBlank_of_mem_replicate
    e.row.trim_text

theorem not_mem_text : '\t' ∉ e.text := by
  intro htab
  have hspaces : ∀ n, '\t' ∉ List.replicate n ' ' := fun n hmem =>
    absurd (List.mem_replicate.1 hmem).2 (by decide)
  rw [text, List.mem_append, List.mem_append] at htab
  rcases htab with (htab | htab) | htab
  · exact hspaces _ htab
  · exact (e.row.mem_text _ htab).elim (by decide) (by decide)
  · exact hspaces _ htab

theorem isEncoding_text : InsnLine.isEncoding e.text = true := by
  have hwords : words e.text = e.row.tokens := by
    rw [text, List.append_assoc, words_append_of_blank isBlank_of_mem_replicate,
      e.row.words_text]
  have hne : e.row.tokens.isEmpty = false := by
    cases e.row <;> rfl
  rw [InsnLine.isEncoding, hwords]
  simp only [hne, Bool.not_false, Bool.true_and, List.all_eq_true, Bool.and_eq_true, beq_iff_eq]
  exact e.row.of_mem_tokens

end EncodingColumn

/-! ## The instruction -/

/-- A mnemonic and, where there are any, operands behind some blanks. -/
structure InsnText where
  mnemonic : List Char
  gap : List Char := [' ']
  operands : List Char := []
  mnemonic_ne : mnemonic ≠ []
  mnemonic_solid : ∀ c ∈ mnemonic, isBlank c = false
  gap_ne : gap ≠ []
  gap_blank : ∀ c ∈ gap, isBlank c = true
  operands_trimmed : trim operands = operands

namespace InsnText

variable (i : InsnText)

def text : List Char := i.mnemonic ++ if i.operands = [] then [] else i.gap ++ i.operands

theorem splitInsn_text : InsnLine.splitInsn i.text = (i.mnemonic, i.operands) := by
  obtain ⟨c, more, hgap⟩ := List.exists_cons_of_ne_nil i.gap_ne
  have hblank := i.gap_blank
  rw [hgap] at hblank
  rw [List.forall_mem_cons] at hblank
  unfold text
  split
  next hnone =>
    rw [List.append_nil, InsnLine.splitInsn, cut_eq_none i.mnemonic_solid, hnone]
  next =>
    have hcut : cut isBlank (i.mnemonic ++ (i.gap ++ i.operands)) =
        some (i.mnemonic, more ++ i.operands) := by
      rw [hgap, List.cons_append]
      exact cut_append i.mnemonic_solid hblank.1 _
    have hoperands : trim (more ++ i.operands ++ []) = i.operands :=
      trim_append_append hblank.2 isBlank_of_mem_nil i.operands_trimmed
    rw [List.append_nil] at hoperands
    rw [InsnLine.splitInsn, hcut]
    exact congrArg (i.mnemonic, ·) hoperands

theorem trim_text : trim i.text = i.text := by
  rw [trim_eq_self_iff, trimStart_eq_self_iff, trimEnd_eq_self_iff]
  constructor
  · intro c hc
    rw [text, List.head?_append_of_ne_nil _ i.mnemonic_ne] at hc
    exact i.mnemonic_solid c (List.mem_of_mem_head? hc)
  · intro c hc
    unfold text at hc
    split at hc
    next =>
      rw [List.append_nil] at hc
      exact i.mnemonic_solid c (List.mem_of_mem_getLast? hc)
    next hsome =>
      rw [← List.append_assoc, List.getLast?_append_of_ne_nil _ hsome] at hc
      exact trimEnd_eq_self_iff.1 (trim_eq_self_iff.1 i.operands_trimmed).2 c hc

end InsnText

/-! ## Splitting a line -/

namespace InsnLine

variable {before after body : List Char}

theorem columns_tab (h : '\t' ∉ before) (after : List Char) :
    columns ('\t' :: (before ++ '\t' :: after)) = (trim before, trim after) := by
  have hcut : cut (· == '\t') (before ++ '\t' :: after) = some (before, after) :=
    cut_append (beq_of_not_mem h) (by decide) after
  rw [columns, hcut]

theorem columns_of_not_mem (h : '\t' ∉ body) :
    columns ('\t' :: body) = if isEncoding body then (trim body, []) else ([], trim body) := by
  have hcut : cut (· == '\t') body = none := cut_eq_none (beq_of_not_mem h)
  rw [columns, hcut]

theorem ofChars?_append (o : OffsetColumn) (body : List Char) :
    ofChars? (o.text ++ body) =
      some
        { offset := o.offset
          encoding := (columns ('\t' :: body)).1
          mnemonic := (splitInsn (columns ('\t' :: body)).2).1
          operands := (splitInsn (columns ('\t' :: body)).2).2 } := by
  have hword : word32? o.digits = some o.offset :=
    word32?_eq_some_iff.2 ⟨o.digits_hex, o.value⟩
  have hcolon : ':' ∉ o.digits := fun hmem =>
    absurd ((isHex_iff.1 o.digits_hex).2 ':' hmem) (by decide)
  have hcut : cut (· == ':') (trimStart (o.text ++ body)) = some (o.digits, '\t' :: body) := by
    rw [o.trimStart_text_append]
    exact cut_append (beq_of_not_mem hcolon) (by decide) _
  rw [ofChars?, hcut]
  dsimp only
  rw [if_pos (by rw [List.head?_cons]; decide), hword]
  rfl

theorem toNat_encodingLength (insn : InsnLine) :
    insn.encodingLength.toNat = min (insn.encoding.countP isHexDigit / 2) 0xffffffff := by
  rw [encodingLength, UInt32.toNat_ofNat_of_lt']
  exact Nat.lt_of_le_of_lt (Nat.min_le_right _ _) (by decide)

/-- A printed line is split into what it was printed from, and so is a line that goes on with an
encoding. The number of bytes that are shown is a 32-bit number, which stops at the largest. -/
theorem ofChars?_printed (o : OffsetColumn) (e : EncodingColumn) (i : InsnText) :
    let insn : InsnLine :=
      { offset := o.offset, encoding := e.row.text, mnemonic := i.mnemonic, operands := i.operands }
    let more : InsnLine :=
      { offset := o.offset, encoding := e.row.text, mnemonic := [], operands := [] }
    ofChars? (o.text ++ (e.text ++ '\t' :: i.text)) = some insn ∧
      insn.encodingLength.toNat = min e.row.bytes.length 0xffffffff ∧
      ofChars? (o.text ++ e.text) = some more ∧
      more.encodingLength.toNat = min e.row.bytes.length 0xffffffff := by
  intro insn more
  have hlength : ∀ shown : InsnLine, shown.encoding = e.row.text →
      shown.encodingLength.toNat = min e.row.bytes.length 0xffffffff := by
    intro shown hshown
    rw [toNat_encodingLength, hshown, e.row.countP_text]
    omega
  refine ⟨?_, hlength insn rfl, ?_, hlength more rfl⟩
  · rw [ofChars?_append, columns_tab e.not_mem_text, e.trim_text, i.trim_text, i.splitInsn_text]
  · rw [ofChars?_append, columns_of_not_mem e.not_mem_text, if_pos e.isEncoding_text, e.trim_text]
    rfl

/-- Such a line, as it is printed. -/
example :
    (OffsetColumn.ofOffset 0x8000).text ++
        ({ row := .last (.ofBytes [0xe9, 0x2d, 0x48, 0x00] (by decide)), after := 1 } :
          EncodingColumn).text = "8000:\te92d4800 ".toList := by
  decide +kernel

end InsnLine

end TraceCoverage

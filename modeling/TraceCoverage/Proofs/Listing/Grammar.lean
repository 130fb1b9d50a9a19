import TraceCoverage.Listing.LineKind
import TraceCoverage.Proofs.Target.Columns

/-!
# The grammar of listing lines

What a line of a listing is, is said here without reading it: a header is a number and a label with
blanks around them, and an instruction has an offset, a colon, a tab and a mnemonic. Classification
answers exactly so, and a header can be cut into its parts in one way only.
-/

namespace TraceCoverage

open Text

/-! ## Headers -/

/-- `<digits> <label>:` with blanks around it and in between. -/
@[ext]
structure HeaderText where
  lead : List Char
  digits : List Char
  gap : List Char
  label : List Char
  trail : List Char
  offset : UInt32
  lead_blank : ∀ c ∈ lead, isBlank c = true
  digits_hex : isHex digits = true
  gap_ne : gap ≠ []
  gap_blank : ∀ c ∈ gap, isBlank c = true
  label_ne : label ≠ []
  trail_blank : ∀ c ∈ trail, isBlank c = true
  value : hexValue digits = offset.toNat

namespace HeaderText

variable {h h' : HeaderText}

def tail (h : HeaderText) : List Char := h.gap ++ '<' :: (h.label ++ ['>', ':'] ++ h.trail)

def text (h : HeaderText) : List Char := h.lead ++ (h.digits ++ h.tail)

theorem exists_digits (h : HeaderText) :
    ∃ d more, h.digits = d :: more ∧ isBlank d = false := by
  obtain ⟨hne, hhex⟩ := isHex_iff.1 h.digits_hex
  obtain ⟨d, more, hdigits⟩ := List.exists_cons_of_ne_nil hne
  exact ⟨d, more, hdigits, not_isBlank_of_isHexDigit (hhex d (by simp [hdigits]))⟩

theorem exists_gap (h : HeaderText) :
    ∃ b more, h.gap = b :: more ∧ isBlank b = true ∧ isHexDigit b = false := by
  obtain ⟨b, more, hgap⟩ := List.exists_cons_of_ne_nil h.gap_ne
  have hblank : isBlank b = true := h.gap_blank b (by simp [hgap])
  refine ⟨b, more, hgap, hblank, ?_⟩
  cases hdigit : isHexDigit b with
  | false => rfl
  | true =>
    rw [not_isBlank_of_isHexDigit hdigit] at hblank
    cases hblank

theorem text_injective (heq : h.text = h'.text) : h = h' := by
  -- All parts but the label are runs of one sort of character. The label may itself have `>:` in it,
  -- but it ends where trimming ends.
  obtain ⟨d, more, hdigits, hd⟩ := h.exists_digits
  obtain ⟨d', more', hdigits', hd'⟩ := h'.exists_digits
  obtain ⟨b, gap, hgap, -, hb⟩ := h.exists_gap
  obtain ⟨b', gap', hgap', -, hb'⟩ := h'.exists_gap
  have hlead : h.lead = h'.lead := by
    rw [text, text, hdigits, hdigits'] at heq
    exact (run_unique h.lead_blank hd h'.lead_blank hd' heq).1
  rw [text, text, hlead, List.append_cancel_left_eq] at heq
  have hnumber : h.digits = h'.digits := by
    rw [tail, tail, hgap, hgap'] at heq
    exact (run_unique (isHex_iff.1 h.digits_hex).2 hb (isHex_iff.1 h'.digits_hex).2 hb' heq).1
  rw [hnumber, List.append_cancel_left_eq] at heq
  obtain ⟨hgaps, -, hrest⟩ :=
    run_unique h.gap_blank (by decide) h'.gap_blank (by decide) heq
  have hlabel : h.label ++ ['>', ':'] = h'.label ++ ['>', ':'] := by
    have hends := congrArg trimEnd hrest
    rwa [trimEnd_append h.trail_blank, trimEnd_append h'.trail_blank,
      trimEnd_eq_self_iff.2 (by simp; decide), trimEnd_eq_self_iff.2 (by simp; decide)] at hends
  rw [hlabel, List.append_cancel_left_eq] at hrest
  refine HeaderText.ext hlead hnumber hgaps (List.append_cancel_right hlabel) hrest ?_
  rw [← UInt32.toNat_inj, ← h.value, ← h'.value, hnumber]

end HeaderText

namespace LineKind

variable {line cs : List Char} {offset : UInt32} {label : String}

theorem label?_eq_some_iff : label? cs = some label ↔
    ∃ name trail, cs = '<' :: (name ++ ['>', ':'] ++ trail) ∧ (∀ c ∈ trail, isBlank c = true) ∧
      name ≠ [] ∧ '\n' ∉ name ∧ String.ofList name = label := by
  constructor
  · intro h
    unfold label? at h
    split at h
    next rest =>
      obtain ⟨name, hname, hlabel⟩ := Option.bind_eq_some_iff.1 h
      rw [Option.ite_none_left_eq_some, Option.some.injEq] at hlabel
      obtain ⟨hkept, rfl⟩ := hlabel
      obtain ⟨trail, htrail, hrest⟩ := exists_trimEnd_append rest
      rw [before?_eq_some_iff.1 hname] at hrest
      refine ⟨name, trail, by rw [hrest], htrail, ?_, ?_, rfl⟩
      · rintro rfl
        simp at hkept
      · intro hmem
        simp [hmem] at hkept
    next => cases h
  · rintro ⟨name, trail, rfl, htrail, hne, hline, rfl⟩
    have hend : trimEnd (name ++ ['>', ':']) = name ++ ['>', ':'] :=
      trimEnd_eq_self_iff.2 (by simp; decide)
    rw [label?, trimEnd_append htrail, hend, before?_eq_some_iff.2 rfl, Option.bind_some, if_neg]
    simpa [hne] using hline

theorem exists_headerText (h : header? line = some (offset, label)) :
    ∃ h : HeaderText, h.text = line ∧ h.offset = offset ∧ String.ofList h.label = label := by
  unfold header? at h
  dsimp only at h
  rw [Option.ite_none_right_eq_some] at h
  obtain ⟨hblank, hparts⟩ := h
  split at hparts
  next o l hword hlabel =>
    obtain ⟨rfl, rfl⟩ := Prod.mk.inj (Option.some.inj hparts)
    obtain ⟨hhex, hvalue⟩ := word32?_eq_some_iff.1 hword
    obtain ⟨lead, hlead, hstart⟩ := exists_append_trimStart line
    obtain ⟨gap, hgap, htail⟩ := exists_append_trimStart ((trimStart line).dropWhile isHexDigit)
    obtain ⟨name, trail, hname, htrail, hne, -, hlabel⟩ := label?_eq_some_iff.1 hlabel
    rw [hname] at htail
    -- Without a gap the number would be followed by `<`, and a blank was asked for there.
    have hgap_ne : gap ≠ [] := by
      rintro rfl
      rw [htail] at hblank
      exact absurd hblank (by rw [List.nil_append, List.head?_cons]; decide)
    refine
      ⟨{ lead
         digits := (trimStart line).takeWhile isHexDigit
         gap
         label := name
         trail
         offset := o
         lead_blank := hlead
         digits_hex := hhex
         gap_ne := hgap_ne
         gap_blank := hgap
         label_ne := hne
         trail_blank := htrail
         value := hvalue }, ?_, rfl, hlabel⟩
    rw [HeaderText.text, HeaderText.tail, ← htail, List.takeWhile_append_dropWhile, ← hstart]
  next => cases hparts

theorem header?_text (h : HeaderText) (hlabel : '\n' ∉ h.label) :
    header? h.text = some (h.offset, String.ofList h.label) := by
  obtain ⟨d, more, hdigits, hd⟩ := h.exists_digits
  obtain ⟨b, gap, hgap, hblank, hb⟩ := h.exists_gap
  have hhex := (isHex_iff.1 h.digits_hex).2
  have hstart : trimStart h.text = h.digits ++ h.tail := by
    rw [HeaderText.text, trimStart_append h.lead_blank, trimStart_eq_self_iff, hdigits]
    simpa using hd
  have htail : h.tail = b :: (gap ++ '<' :: (h.label ++ ['>', ':'] ++ h.trail)) := by
    rw [HeaderText.tail, hgap, List.cons_append]
  have htake : (h.digits ++ h.tail).takeWhile isHexDigit = h.digits := by
    rw [htail, takeWhile_append_cons hhex hb]
  have hdrop : (h.digits ++ h.tail).dropWhile isHexDigit = h.tail := by
    rw [htail, dropWhile_append_cons hhex hb]
  have hbehind : trimStart h.tail = '<' :: (h.label ++ ['>', ':'] ++ h.trail) := by
    rw [HeaderText.tail, trimStart, dropWhile_append_cons h.gap_blank (by decide)]
  have hread : label? (trimStart h.tail) = some (String.ofList h.label) :=
    label?_eq_some_iff.2 ⟨h.label, h.trail, hbehind, h.trail_blank, h.label_ne, hlabel, rfl⟩
  unfold header?
  dsimp only
  rw [hstart, htake, hdrop, if_pos, word32?_eq_some_iff.2 ⟨h.digits_hex, h.value⟩, hread]
  rw [htail, List.head?_cons]
  exact hblank

/-- A header is read exactly where one stands. -/
theorem header?_eq_some_iff (hline : '\n' ∉ line) : header? line = some (offset, label) ↔
    ∃ h : HeaderText, h.text = line ∧ h.offset = offset ∧ String.ofList h.label = label := by
  constructor
  · exact exists_headerText
  · rintro ⟨h, rfl, rfl, rfl⟩
    apply header?_text
    intro hmem
    refine hline ?_
    rw [HeaderText.text, HeaderText.tail]
    simp [hmem]

/-! ## Instructions -/

theorem codeOffset?_eq_some_iff : codeOffset? line = some offset ↔
    ∃ (o : OffsetColumn) (rest : List Char), o.text ++ rest = line ∧ o.offset = offset := by
  constructor
  · intro h
    unfold codeOffset? at h
    dsimp only at h
    split at h
    next rest hrest =>
      obtain ⟨hhex, hvalue⟩ := word32?_eq_some_iff.1 h
      obtain ⟨lead, hlead, hstart⟩ := exists_append_trimStart line
      refine
        ⟨{ lead
           digits := (trimStart line).takeWhile isHexDigit
           offset
           lead_blank := hlead
           digits_hex := hhex
           value := hvalue }, rest, ?_, rfl⟩
      rw [OffsetColumn.text, List.append_assoc, List.append_assoc]
      conv => rhs; rw [hstart, ← List.takeWhile_append_dropWhile (p := isHexDigit)
        (l := trimStart line), hrest]
      rfl
    next => cases h
  · rintro ⟨o, rest, rfl, rfl⟩
    have hhex := (isHex_iff.1 o.digits_hex).2
    unfold codeOffset?
    dsimp only
    rw [o.trimStart_text_append, takeWhile_append_cons hhex (by decide),
      dropWhile_append_cons hhex (by decide)]
    exact word32?_eq_some_iff.2 ⟨o.digits_hex, o.value⟩

/-! ## All kinds -/

/-- What makes a line one of its kind. Of several kinds that fit, the first one counts. -/
inductive Fits (t : Target) (line : List Char) : LineKind → Prop
  | header (h : HeaderText) : h.text = line → Fits t line (.header h.offset (String.ofList h.label))
  | sentinel (insn : InsnLine) : (∀ h : HeaderText, h.text ≠ line) → t.isSentinel line = true →
    InsnLine.ofChars? line = some insn → Fits t line (.sentinel insn.offset)
  | instruction (o : OffsetColumn) (rest : List Char) (insn : InsnLine) :
    (∀ h : HeaderText, h.text ≠ line) → t.isSentinel line = false → o.text ++ rest = line →
      InsnLine.ofChars? line = some insn → insn.mnemonic ≠ [] →
        Fits t line (.instruction o.offset)
  | text : (∀ h : HeaderText, h.text ≠ line) → t.isSentinel line = false →
    (∀ (o : OffsetColumn) (rest : List Char) (insn : InsnLine), o.text ++ rest = line →
      InsnLine.ofChars? line = some insn → insn.mnemonic = []) → Fits t line .text

variable {t : Target}

theorem header?_eq_none_iff (hline : '\n' ∉ line) :
    header? line = none ↔ ∀ h : HeaderText, h.text ≠ line := by
  rw [Option.eq_none_iff_forall_ne_some, Prod.forall]
  constructor
  · intro hnone h htext
    exact hnone h.offset _ ((header?_eq_some_iff hline).2 ⟨h, htext, rfl, rfl⟩)
  · intro hnone offset label hsome
    obtain ⟨h, htext, _⟩ := (header?_eq_some_iff hline).1 hsome
    exact hnone h htext

theorem fits_ofLine (hline : '\n' ∉ line)
    (hread : t.isSentinel line = true → ∃ insn, InsnLine.ofChars? line = some insn) :
    Fits t line (ofLine t line) := by
  unfold ofLine
  cases hheader : header? line with
  | some found =>
    obtain ⟨offset, label⟩ := found
    obtain ⟨h, htext, rfl, rfl⟩ := (header?_eq_some_iff hline).1 hheader
    exact .header h htext
  | none =>
    rw [header?_eq_none_iff hline] at hheader
    cases hsentinel : t.isSentinel line with
    | true =>
      obtain ⟨insn, hinsn⟩ := hread hsentinel
      simp only [if_true, hinsn]
      exact .sentinel insn hheader hsentinel hinsn
    | false =>
      simp only [Bool.false_eq_true, if_false]
      split
      next offset hoffset hmnemonic =>
        obtain ⟨o, rest, htext, rfl⟩ := codeOffset?_eq_some_iff.1 hoffset
        obtain ⟨insn, hinsn, hne⟩ := (Option.any_eq_true _ _).1 hmnemonic
        exact .instruction o rest insn hheader hsentinel htext hinsn (by simpa using hne)
      next hnot =>
        refine .text hheader hsentinel fun o rest insn htext hinsn => ?_
        by_contra hne
        refine hnot o.offset (codeOffset?_eq_some_iff.2 ⟨o, rest, htext, rfl⟩) ?_
        simpa [hinsn] using hne

theorem ofLine_of_fits (hline : '\n' ∉ line) {kind : LineKind} (h : Fits t line kind) :
    ofLine t line = kind := by
  unfold ofLine
  cases h with
  | header h htext => rw [(header?_eq_some_iff hline).2 ⟨h, htext, rfl, rfl⟩]
  | sentinel insn hheader hsentinel hinsn =>
    simp only [(header?_eq_none_iff hline).2 hheader, hsentinel, if_true, hinsn]
  | instruction o rest insn hheader hsentinel htext hinsn hne =>
    have hoffset : codeOffset? line = some o.offset :=
      codeOffset?_eq_some_iff.2 ⟨o, rest, htext, rfl⟩
    have hmnemonic : (InsnLine.ofChars? line).any (!·.mnemonic.isEmpty) = true :=
      (Option.any_eq_true _ _).2 ⟨insn, hinsn, by simpa using hne⟩
    simp only [(header?_eq_none_iff hline).2 hheader, hsentinel, Bool.false_eq_true, if_false,
      hoffset, hmnemonic]
  | text hheader hsentinel hnone =>
    simp only [(header?_eq_none_iff hline).2 hheader, hsentinel, Bool.false_eq_true, if_false]
    split
    next offset hoffset hmnemonic =>
      obtain ⟨o, rest, htext, -⟩ := codeOffset?_eq_some_iff.1 hoffset
      obtain ⟨insn, hinsn, hne⟩ := (Option.any_eq_true _ _).1 hmnemonic
      simp [hnone o rest insn htext hinsn] at hne
    next => rfl

/-- A line without a line feed is of the kind that fits it, for the target of any architecture. The
parts of a header are the only ones, and the offset of an instruction is the one of its columns. -/
theorem ofLine_grammar (name : String) (a : Architecture) (hline : '\n' ∉ line) :
    let t := Target.ofArchitecture name a
    (∀ kind, ofLine t line = kind ↔ Fits t line kind) ∧
      (∀ h h' : HeaderText, h.text = line → h'.text = line → h = h') ∧
      ∀ offset, ofLine t line = .instruction offset →
        ∃ insn, InsnLine.ofChars? line = some insn ∧ insn.offset = offset := by
  intro t
  have hread : t.isSentinel line = true → ∃ insn, InsnLine.ofChars? line = some insn := fun h => by
    obtain ⟨insn, hinsn, -⟩ := (Option.any_eq_true _ _).1 h
    exact ⟨insn, hinsn⟩
  have hfits : ∀ kind, ofLine t line = kind ↔ Fits t line kind := fun kind =>
    ⟨fun h => h ▸ fits_ofLine hline hread, ofLine_of_fits hline⟩
  refine ⟨hfits, fun h h' htext htext' => HeaderText.text_injective (htext.trans htext'.symm), ?_⟩
  intro offset hoffset
  cases (hfits _).1 hoffset with
  | instruction o rest _ _ _ htext _ _ => exact ⟨_, htext ▸ InsnLine.ofChars?_append o rest, rfl⟩

def templateHeader : HeaderText where
  lead := []
  digits := "40001000".toList
  gap := [' ']
  label := "Foo<int>::bar() const".toList
  trail := []
  offset := 0x40001000
  lead_blank := isBlank_of_mem_nil
  digits_hex := by decide
  gap_ne := by simp
  gap_blank := by simp [isBlank]
  label_ne := List.isEmpty_eq_false_iff.1 (by decide)
  trail_blank := isBlank_of_mem_nil
  value := by decide

theorem ofLine_grammar_template :
    ofLine (Target.ofArchitecture "sparc-rtems6" .sparc)
        "40001000 <Foo<int>::bar() const>:".toList =
      .header 0x40001000 "Foo<int>::bar() const" := by
  have hline : '\n' ∉ "40001000 <Foo<int>::bar() const>:".toList := by decide
  obtain ⟨hfits, -, -⟩ := ofLine_grammar "sparc-rtems6" .sparc hline
  exact (hfits _).2 (.header templateHeader (by decide))

end LineKind

end TraceCoverage

import TraceCoverage.Text.Hex
import Mathlib.Data.List.TakeWhile

/-!
# What scanning finds

A text that is put together from parts is cut, trimmed and split into words again. Digits are
neither blanks nor marks, so a number ends where something else starts.
-/

namespace TraceCoverage.Text

variable {p sep : Char → Bool} {c : Char} {before after cs w : List Char}

/-! ## Runs -/

section

variable {α : Type} {p : α → Bool} {a : α} {run rest : List α}

theorem takeWhile_append_of_head (hrun : ∀ x ∈ run, p x = true)
    (hrest : ∀ x ∈ rest.head?, p x = false) : (run ++ rest).takeWhile p = run := by
  rw [List.takeWhile_append_of_pos hrun]
  cases rest with
  | nil => exact List.append_nil run
  | cons x rest =>
    rw [List.takeWhile_cons, hrest x rfl]
    exact List.append_nil run

theorem dropWhile_append_of_head (hrun : ∀ x ∈ run, p x = true)
    (hrest : ∀ x ∈ rest.head?, p x = false) : (run ++ rest).dropWhile p = rest := by
  rw [List.dropWhile_append_of_pos hrun]
  cases rest with
  | nil => rfl
  | cons x rest =>
    rw [List.dropWhile_cons, hrest x rfl]
    rfl

theorem takeWhile_append_cons (hrun : ∀ x ∈ run, p x = true) (ha : p a = false) (rest : List α) :
    (run ++ a :: rest).takeWhile p = run :=
  takeWhile_append_of_head hrun (by simpa using ha)

theorem dropWhile_append_cons (hrun : ∀ x ∈ run, p x = true) (ha : p a = false) (rest : List α) :
    (run ++ a :: rest).dropWhile p = a :: rest :=
  dropWhile_append_of_head hrun (by simpa using ha)

end

/-- A text is cut in one way only where a run ends. -/
theorem run_unique {run run' : List Char} {d : Char} {after' : List Char}
    (hrun : ∀ x ∈ run, p x = true) (hc : p c = false) (hrun' : ∀ x ∈ run', p x = true)
    (hd : p d = false) (h : run ++ c :: after = run' ++ d :: after') :
    run = run' ∧ c = d ∧ after = after' := by
  have hruns := congrArg (List.takeWhile p) h
  have hrest := congrArg (List.dropWhile p) h
  rw [takeWhile_append_cons hrun hc, takeWhile_append_cons hrun' hd] at hruns
  rw [dropWhile_append_cons hrun hc, dropWhile_append_cons hrun' hd] at hrest
  exact ⟨hruns, List.cons.inj hrest⟩

/-! ## Cutting -/

theorem cut_append (hbefore : ∀ x ∈ before, sep x = false) (hc : sep c = true)
    (after : List Char) : cut sep (before ++ c :: after) = some (before, after) := by
  have hpass : ∀ x ∈ before, (!sep x) = true := fun x hx => by rw [hbefore x hx]; rfl
  have hstop : (!sep c) = false := by rw [hc]; rfl
  rw [cut, dropWhile_append_cons hpass hstop, takeWhile_append_cons hpass hstop]

theorem cut_eq_none (h : ∀ x ∈ cs, sep x = false) : cut sep cs = none := by
  have hnil : cs.dropWhile (!sep ·) = [] :=
    List.dropWhile_eq_nil_iff.2 fun x hx => by rw [h x hx]; rfl
  rw [cut, hnil]

theorem before?_eq_some_iff {ending : List Char} :
    before? ending cs = some before ↔ cs = before ++ ending := by
  rw [before?, Option.ite_none_right_eq_some, Option.some.injEq, List.isSuffixOf_iff_suffix]
  constructor
  · rintro ⟨⟨start, rfl⟩, htake⟩
    rw [← htake, List.length_append, Nat.add_sub_cancel, List.take_left]
  · rintro rfl
    exact ⟨List.suffix_append _ _, by rw [List.length_append, Nat.add_sub_cancel, List.take_left]⟩

theorem after?_append (start cs : List Char) : after? start (start ++ cs) = some cs := by
  rw [after?, if_pos (List.isPrefixOf_iff_prefix.2 (List.prefix_append _ _)), List.drop_left]

theorem beq_of_not_mem (h : c ∉ cs) : ∀ x ∈ cs, (x == c) = false :=
  fun _ hx => beq_eq_false_iff_ne.2 fun heq => h (heq ▸ hx)

/-! ## Trimming -/

theorem isBlank_of_mem_nil : ∀ x ∈ ([] : List Char), isBlank x = true :=
  List.forall_mem_nil _

theorem isBlank_of_mem_replicate {n : Nat} : ∀ x ∈ List.replicate n ' ', isBlank x = true := by
  intro x hx
  rw [(List.mem_replicate.1 hx).2]
  decide

theorem trimStart_append (h : ∀ x ∈ before, isBlank x = true) (cs : List Char) :
    trimStart (before ++ cs) = trimStart cs :=
  List.dropWhile_append_of_pos h

theorem trimEnd_append (h : ∀ x ∈ after, isBlank x = true) (cs : List Char) :
    trimEnd (cs ++ after) = trimEnd cs := by
  rw [trimEnd, List.reverse_append, List.dropWhile_append_of_pos (by simpa using h)]
  rfl

theorem trimEnd_append_cons (before after : List Char) (hc : isBlank c = false) :
    trimEnd (before ++ c :: after) = before ++ c :: trimEnd after := by
  rw [trimEnd, trimEnd, List.reverse_append, List.reverse_cons, List.append_assoc,
    List.dropWhile_append]
  split
  next hnil =>
    rw [List.isEmpty_iff.1 hnil, List.cons_append, List.dropWhile_cons_of_neg (by simp [hc])]
    simp
  next => simp

theorem exists_append_trimStart (cs : List Char) :
    ∃ before, (∀ x ∈ before, isBlank x = true) ∧ cs = before ++ trimStart cs :=
  ⟨cs.takeWhile isBlank, fun _ hx => List.mem_takeWhile_imp hx,
    (List.takeWhile_append_dropWhile (p := isBlank) (l := cs)).symm⟩

theorem exists_trimEnd_append (cs : List Char) :
    ∃ after, (∀ x ∈ after, isBlank x = true) ∧ cs = trimEnd cs ++ after := by
  obtain ⟨before, hbefore, heq⟩ := exists_append_trimStart cs.reverse
  refine ⟨before.reverse, fun x hx => hbefore x (List.mem_reverse.1 hx), ?_⟩
  rw [trimEnd, ← trimStart, ← List.reverse_append, ← heq, List.reverse_reverse]

theorem trimStart_eq_self_iff : trimStart cs = cs ↔ ∀ c ∈ cs.head?, isBlank c = false := by
  rw [trimStart, List.dropWhile_eq_self_iff]
  cases cs <;> simp

theorem trimEnd_eq_self_iff : trimEnd cs = cs ↔ ∀ c ∈ cs.getLast?, isBlank c = false := by
  rw [trimEnd, List.reverse_eq_iff, ← trimStart, trimStart_eq_self_iff, List.head?_reverse]

theorem length_trimEnd_le (cs : List Char) : (trimEnd cs).length ≤ cs.length := by
  have hle : (cs.reverse.dropWhile isBlank).length ≤ cs.reverse.length :=
    (List.dropWhile_sublist isBlank).length_le
  rwa [List.length_reverse, ← List.length_reverse, ← trimEnd] at hle

theorem trim_eq_self_iff : trim cs = cs ↔ trimStart cs = cs ∧ trimEnd cs = cs := by
  constructor
  · intro h
    have hsuffix : trimStart cs <:+ cs := List.dropWhile_suffix isBlank
    have hle := length_trimEnd_le (trimStart cs)
    rw [← trim, h] at hle
    have hstart : trimStart cs = cs :=
      hsuffix.eq_of_length (Nat.le_antisymm hsuffix.length_le hle)
    refine ⟨hstart, ?_⟩
    rwa [trim, hstart] at h
  · rintro ⟨hstart, hend⟩
    rw [trim, hstart, hend]

theorem not_isBlank_of_trim_eq (h : trim (c :: cs) = c :: cs) : isBlank c = false :=
  trimStart_eq_self_iff.1 (trim_eq_self_iff.1 h).1 c rfl

theorem trim_eq_nil_iff : trim cs = [] ↔ ∀ x ∈ cs, isBlank x = true := by
  constructor
  · intro h x hx
    obtain ⟨before, hbefore, hstart⟩ := exists_append_trimStart cs
    obtain ⟨after, hafter, hend⟩ := exists_trimEnd_append (trimStart cs)
    rw [← trim, h, List.nil_append] at hend
    rw [hstart, hend, List.mem_append] at hx
    exact hx.elim (hbefore x) (hafter x)
  · intro h
    rw [trim, trimStart, List.dropWhile_eq_nil_iff.2 h]
    rfl

theorem trim_append_append (hbefore : ∀ x ∈ before, isBlank x = true)
    (hafter : ∀ x ∈ after, isBlank x = true) (hcs : trim cs = cs) :
    trim (before ++ cs ++ after) = cs := by
  cases cs with
  | nil =>
    rw [List.append_nil, trim_eq_nil_iff]
    intro x hx
    exact (List.mem_append.1 hx).elim (hbefore x) (hafter x)
  | cons c cs =>
    have hstart : trimStart (c :: cs ++ after) = c :: cs ++ after := by
      rw [trimStart_eq_self_iff, List.cons_append, List.head?_cons]
      rintro _ ⟨rfl⟩
      exact not_isBlank_of_trim_eq hcs
    rw [trim, List.append_assoc, trimStart_append hbefore, hstart, trimEnd_append hafter]
    exact (trim_eq_self_iff.1 hcs).2

/-! ## Words -/

theorem exists_pieces_eq (sep : Char → Bool) (cs : List Char) :
    ∃ rest, pieces sep cs = cs.takeWhile (!sep ·) :: rest := by
  induction cs with
  | nil => exact ⟨[], rfl⟩
  | cons c cs ih =>
    obtain ⟨rest, hrest⟩ := ih
    rw [pieces, List.takeWhile_cons]
    cases sep c with
    | true => exact ⟨pieces sep cs, rfl⟩
    | false => exact ⟨rest, by rw [hrest]; rfl⟩

theorem not_sep_of_mem_pieces (hw : w ∈ pieces sep cs) (hc : c ∈ w) : sep c = false := by
  induction cs generalizing w with
  | nil =>
    obtain rfl := List.mem_singleton.1 hw
    cases hc
  | cons d cs ih =>
    obtain ⟨rest, hrest⟩ := exists_pieces_eq sep cs
    rw [pieces] at hw
    split at hw
    next =>
      rcases List.mem_cons.1 hw with rfl | hmem
      · cases hc
      · exact ih hmem hc
    next hd =>
      rw [hrest] at hw ih
      rcases List.mem_cons.1 hw with rfl | hmem
      · rcases List.mem_cons.1 hc with rfl | hin
        · exact Bool.eq_false_iff.2 hd
        · exact ih List.mem_cons_self hin
      · exact ih (List.mem_cons_of_mem _ hmem) hc

theorem pieces_append_cons (hc : sep c = true) (before after : List Char) :
    pieces sep (before ++ c :: after) = pieces sep before ++ pieces sep after := by
  induction before with
  | nil => simp [pieces, hc]
  | cons d before ih =>
    obtain ⟨rest, hrest⟩ := exists_pieces_eq sep before
    rw [List.cons_append, pieces, pieces, ih]
    split
    next => rfl
    next => rw [hrest]; rfl

theorem pieces_eq_singleton (hw : ∀ x ∈ w, sep x = false) : pieces sep w = [w] := by
  induction w with
  | nil => rfl
  | cons d w ih =>
    obtain ⟨hd, hrest⟩ := List.forall_mem_cons.1 hw
    rw [pieces, if_neg (by simp [hd]), ih hrest]

theorem pieces_append (hw : ∀ x ∈ w, sep x = false) (hc : sep c = true) (cs : List Char) :
    pieces sep (w ++ c :: cs) = w :: pieces sep cs := by
  rw [pieces_append_cons hc, pieces_eq_singleton hw]
  rfl

theorem not_isBlank_of_mem_words (hw : w ∈ words cs) (hc : c ∈ w) : isBlank c = false :=
  not_sep_of_mem_pieces (List.mem_filter.1 hw).1 hc

theorem exists_words_eq (hc : isBlank c = false) (cs : List Char) :
    ∃ rest, words (c :: cs) = (c :: cs).takeWhile (!isBlank ·) :: rest := by
  obtain ⟨rest, hrest⟩ := exists_pieces_eq isBlank (c :: cs)
  refine ⟨rest.filter (!·.isEmpty), ?_⟩
  rw [words, hrest, List.filter_cons_of_pos]
  rw [List.takeWhile_cons_of_pos (by rw [hc]; rfl)]
  rfl

theorem words_eq_singleton (hne : w ≠ []) (hw : ∀ x ∈ w, isBlank x = false) : words w = [w] := by
  rw [words, pieces_eq_singleton hw, List.filter_cons_of_pos (by simpa using hne)]
  rfl

theorem words_append (hne : w ≠ []) (hw : ∀ x ∈ w, isBlank x = false) (hc : isBlank c = true)
    (cs : List Char) : words (w ++ c :: cs) = w :: words cs := by
  rw [words, pieces_append hw hc, List.filter_cons_of_pos (by simpa using hne)]
  rfl

theorem words_append_of_blank (h : ∀ x ∈ before, isBlank x = true) (cs : List Char) :
    words (before ++ cs) = words cs := by
  induction before with
  | nil => rfl
  | cons c before ih =>
    obtain ⟨hc, hrest⟩ := List.forall_mem_cons.1 h
    rw [List.cons_append, words, pieces, if_pos hc, List.filter_cons_of_neg (by simp), ← words]
    exact ih hrest

theorem words_append_of_head (hne : w ≠ []) (hw : ∀ x ∈ w, isBlank x = false)
    (hcs : ∀ x ∈ cs.head?, isBlank x = true) : words (w ++ cs) = w :: words cs := by
  cases cs with
  | nil =>
    rw [List.append_nil, words_eq_singleton hne hw]
    rfl
  | cons c cs =>
    have hc : ∀ x ∈ [c], isBlank x = true := List.forall_mem_singleton.2 (hcs c rfl)
    have hwords : words (c :: cs) = words cs := words_append_of_blank hc cs
    rw [words_append hne hw (hcs c rfl), hwords]

/-! ## Numbers -/

theorem not_isBlank_of_isHexDigit (h : isHexDigit c = true) : isBlank c = false := by
  simp only [isHexDigit, Bool.or_eq_true, Bool.and_eq_true, decide_eq_true_eq, Char.le_def,
    UInt32.le_iff_toNat_le] at h
  have hbounds : (0x30 ≤ c.toNat ∧ c.toNat ≤ 0x66) := by
    change (0x30 ≤ c.toNat ∧ c.toNat ≤ 0x39 ∨ 0x61 ≤ c.toNat ∧ c.toNat ≤ 0x66) ∨
      0x41 ≤ c.toNat ∧ c.toNat ≤ 0x46 at h
    omega
  simp only [isBlank, Bool.or_eq_false_iff, Bool.and_eq_false_iff, decide_eq_false_iff_not,
    beq_eq_false_iff_ne]
  omega

theorem isHex_iff : isHex cs = true ↔ cs ≠ [] ∧ ∀ c ∈ cs, isHexDigit c = true := by
  simp [isHex]

theorem word32?_eq_some_iff {n : UInt32} :
    word32? cs = some n ↔ isHex cs = true ∧ hexValue cs = n.toNat := by
  have hpow : Nat.pow 2 32 = UInt32.size := rfl
  rw [word32?, hex?, hpow]
  constructor
  · intro h
    obtain ⟨value, hvalue, rfl⟩ := Option.map_eq_some_iff.1 h
    rw [Option.ite_none_right_eq_some, Bool.and_eq_true, decide_eq_true_eq,
      Option.some.injEq] at hvalue
    obtain ⟨⟨hhex, hlt⟩, rfl⟩ := hvalue
    exact ⟨hhex, (UInt32.toNat_ofNat_of_lt' hlt).symm⟩
  · rintro ⟨hhex, hvalue⟩
    rw [hvalue, if_pos (by simp [hhex, n.toNat_lt]), Option.map_some, UInt32.ofNat_toNat]

theorem isHexDigit_digitChar : ∀ d < 16, isHexDigit (Nat.digitChar d) = true := by
  decide

theorem hexDigit_digitChar : ∀ d < 16, hexDigit (Nat.digitChar d) = d := by
  decide

theorem hexValue_toHex (n : Nat) :
    isHex (toHex n).toList = true ∧ hexValue (toHex n).toList = n := by
  rw [toHex, String.toList_ofList]
  induction n using Nat.strongRecOn with
  | ind n ih =>
    rw [Nat.toDigits_eq_if (by decide)]
    split
    next hlt =>
      exact ⟨by simp [isHex, isHexDigit_digitChar n hlt],
        by simp [hexValue, hexDigit_digitChar n hlt]⟩
    next hge =>
      obtain ⟨hhex, hvalue⟩ := ih (n / 16) (by omega)
      have hlast : n % 16 < 16 := by omega
      rw [hexValue] at hvalue
      refine ⟨?_, ?_⟩
      · rw [isHex_iff] at hhex ⊢
        refine ⟨by simp, fun c hc => ?_⟩
        rcases List.mem_append.1 hc with hc | hc
        · exact hhex.2 c hc
        · obtain rfl := List.mem_singleton.1 hc
          exact isHexDigit_digitChar _ hlast
      · rw [hexValue, List.foldl_append, hvalue, List.foldl_cons, List.foldl_nil,
          hexDigit_digitChar _ hlast]
        omega

end TraceCoverage.Text

import TraceCoverage.Proofs.Text.Scanning
import TraceCoverage.Target.Operands

/-!
# Patterns in operands

A displaced label and a shown target are said here by their parts. Scanning finds a label wherever
one stands, and of all places where a target may start and one stands it takes the first.
-/

namespace TraceCoverage.Operands

open Text

/-- `<label+0x...>`. -/
structure DisplacedLabel where
  label : List Char
  digits : List Char
  label_ne : label ≠ []
  label_open : ∀ c ∈ label, c ≠ '>' ∧ c ≠ '+'
  digits_hex : isHex digits = true

def DisplacedLabel.text (d : DisplacedLabel) : List Char :=
  '<' :: (d.label ++ '+' :: '0' :: 'x' :: (d.digits ++ ['>']))

/-- `<hex> <label>`, with `0x` before the number or without. -/
structure ShownTarget where
  sign : List Char
  digits : List Char
  gap : List Char
  label : List Char
  sign_eq : sign = [] ∨ sign = ['0', 'x']
  digits_hex : isHex digits = true
  gap_ne : gap ≠ []
  gap_blank : ∀ c ∈ gap, isBlank c = true
  label_ne : label ≠ []
  label_open : '>' ∉ label

namespace ShownTarget

def number (s : ShownTarget) : List Char := s.digits ++ (s.gap ++ '<' :: (s.label ++ ['>']))

def text (s : ShownTarget) : List Char := s.sign ++ s.number

end ShownTarget

variable {cs rest before after digits : List Char} {fresh : Bool}

/-! ## Labels -/

theorem exists_displacedLabel (h : startsDisplaced cs = true) :
    ∃ d : DisplacedLabel, d.text <+: cs := by
  unfold startsDisplaced at h
  split at h
  next rest =>
    dsimp only at h
    rw [Bool.and_eq_true] at h
    obtain ⟨hlabel, htail⟩ := h
    split at htail
    next digits hdrop =>
      rw [Bool.and_eq_true, beq_iff_eq] at htail
      obtain ⟨hdigits, hend⟩ := htail
      obtain ⟨after, hafter⟩ := List.head?_eq_some_iff.1 hend
      refine
        ⟨{ label := rest.takeWhile fun c => c != '>' && c != '+'
           digits := digits.takeWhile isHexDigit
           label_ne := by simpa using hlabel
           label_open := fun c hc => by simpa using List.mem_takeWhile_imp hc
           digits_hex := isHex_iff.2
            ⟨by simpa using hdigits, fun c hc => List.mem_takeWhile_imp hc⟩ }, after, ?_⟩
      conv =>
        rhs
        rw [← List.takeWhile_append_dropWhile (p := fun c => c != '>' && c != '+') (l := rest),
          hdrop, ← List.takeWhile_append_dropWhile (p := isHexDigit) (l := digits), hafter]
      simp [DisplacedLabel.text]
    next => cases htail
  next => cases h

theorem startsDisplaced_text (d : DisplacedLabel) (after : List Char) :
    startsDisplaced (d.text ++ after) = true := by
  have hlabel : ∀ c ∈ d.label, (c != '>' && c != '+') = true := by
    simpa using d.label_open
  obtain ⟨hne, hhex⟩ := isHex_iff.1 d.digits_hex
  have htext : d.text ++ after =
      '<' :: (d.label ++ '+' :: '0' :: 'x' :: (d.digits ++ '>' :: after)) := by
    simp [DisplacedLabel.text]
  rw [htext, startsDisplaced, takeWhile_append_cons hlabel (by decide),
    dropWhile_append_cons hlabel (by decide)]
  split
  next digits heq =>
    obtain rfl : d.digits ++ '>' :: after = digits := by simpa using heq
    rw [takeWhile_append_cons hhex (by decide), dropWhile_append_cons hhex (by decide)]
    simp [d.label_ne, hne]
  next hother => exact absurd rfl (hother _)

theorem startsDisplaced_iff : startsDisplaced cs = true ↔ ∃ d : DisplacedLabel, d.text <+: cs := by
  constructor
  · exact exists_displacedLabel
  · rintro ⟨d, after, rfl⟩
    exact startsDisplaced_text d after

theorem hasDisplacedLabel_iff :
    hasDisplacedLabel cs = true ↔ ∃ d : DisplacedLabel, d.text <:+: cs := by
  induction cs with
  | nil =>
    refine iff_of_false Bool.false_ne_true ?_
    rintro ⟨d, hd⟩
    cases List.infix_nil.1 hd
  | cons c cs ih =>
    rw [hasDisplacedLabel, Bool.or_eq_true, startsDisplaced_iff, ih, ← exists_or]
    simp only [List.infix_cons_iff]

/-! ## Targets at the start -/

theorem startsLabel_iff : startsLabel cs = true ↔
    ∃ label after, cs = '<' :: (label ++ '>' :: after) ∧ label ≠ [] ∧ '>' ∉ label := by
  constructor
  · intro h
    unfold startsLabel at h
    split at h
    next rest =>
      rw [Bool.and_eq_true, beq_iff_eq] at h
      obtain ⟨hlabel, hend⟩ := h
      obtain ⟨after, hafter⟩ := List.head?_eq_some_iff.1 hend
      refine ⟨rest.takeWhile (· != '>'), after, ?_, by simpa using hlabel, fun hmem => ?_⟩
      · rw [← hafter, List.takeWhile_append_dropWhile]
      · simpa using List.mem_takeWhile_imp hmem
    next => cases h
  · rintro ⟨label, after, rfl, hne, hopen⟩
    have hlabel : ∀ c ∈ label, (c != '>') = true := fun c hc => by
      rw [bne, beq_of_not_mem hopen c hc]
      rfl
    rw [startsLabel, takeWhile_append_cons hlabel (by decide),
      dropWhile_append_cons hlabel (by decide)]
    simp [hne]

theorem after?_number (s : ShownTarget) (after : List Char) :
    after? ['0', 'x'] (s.number ++ after) = none := by
  obtain ⟨hne, hhex⟩ := isHex_iff.1 s.digits_hex
  obtain ⟨d, more, hdigits⟩ := List.exists_cons_of_ne_nil hne
  obtain ⟨b, gap, hgap⟩ := List.exists_cons_of_ne_nil s.gap_ne
  rw [after?, if_neg]
  rw [ShownTarget.number, hdigits, hgap]
  -- A digit or a blank stands where the `x` would have to.
  cases more with
  | nil =>
    have hb : 'x' ≠ b := by
      rintro rfl
      exact absurd (s.gap_blank 'x' (by simp [hgap])) (by decide)
    simp [List.isPrefixOf, hb]
  | cons e more =>
    have he : 'x' ≠ e := by
      rintro rfl
      exact absurd (hhex 'x' (by simp [hdigits])) (by decide)
    simp [List.isPrefixOf, he]

theorem ShownTarget.getD_after?_text (s : ShownTarget) (after : List Char) :
    (after? ['0', 'x'] (s.text ++ after)).getD (s.text ++ after) = s.number ++ after := by
  rw [text]
  rcases s.sign_eq with hsign | hsign
  · rw [hsign, List.nil_append, after?_number]
    rfl
  · rw [hsign, List.append_assoc, after?_append]
    rfl

theorem exists_sign (cs : List Char) : ∃ sign, (sign = [] ∨ sign = ['0', 'x']) ∧
    cs = sign ++ (after? ['0', 'x'] cs).getD cs := by
  rw [after?]
  split
  next hsign =>
    obtain ⟨rest, rfl⟩ := List.isPrefixOf_iff_prefix.1 hsign
    exact ⟨['0', 'x'], .inr rfl, rfl⟩
  next => exact ⟨[], .inl rfl, rfl⟩

theorem exists_shownTarget (h : startsTarget cs = some digits) :
    ∃ s : ShownTarget, s.digits = digits ∧ s.text <+: cs := by
  unfold startsTarget at h
  dsimp only at h
  rw [Option.ite_none_right_eq_some, Bool.and_eq_true, Bool.and_eq_true,
    Option.some.injEq] at h
  obtain ⟨⟨⟨hdigits, hblank⟩, hlabel⟩, rfl⟩ := h
  obtain ⟨sign, hsign, hcs⟩ := exists_sign cs
  generalize (after? ['0', 'x'] cs).getD cs = rest at *
  obtain ⟨label, after, htail, hne, hopen⟩ := startsLabel_iff.1 hlabel
  refine
    ⟨{ sign
       digits := rest.takeWhile isHexDigit
       gap := (rest.dropWhile isHexDigit).takeWhile isBlank
       label
       sign_eq := hsign
       digits_hex := isHex_iff.2
        ⟨by simpa using hdigits, fun c hc => List.mem_takeWhile_imp hc⟩
       gap_ne := ?_
       gap_blank := fun c hc => List.mem_takeWhile_imp hc
       label_ne := hne
       label_open := hopen }, rfl, after, ?_⟩
  · intro hnil
    obtain ⟨b, hb, hbblank⟩ := (Option.any_eq_true _ _).1 hblank
    obtain ⟨more, hmore⟩ := List.head?_eq_some_iff.1 hb
    rw [hmore, List.takeWhile_cons_of_pos hbblank] at hnil
    cases hnil
  · conv =>
      rhs
      rw [hcs, ← List.takeWhile_append_dropWhile (p := isHexDigit) (l := rest),
        ← List.takeWhile_append_dropWhile (p := isBlank) (l := rest.dropWhile isHexDigit), htail]
    simp [ShownTarget.text, ShownTarget.number]

theorem startsTarget_text (s : ShownTarget) (after : List Char) :
    startsTarget (s.text ++ after) = some s.digits := by
  obtain ⟨hne, hhex⟩ := isHex_iff.1 s.digits_hex
  obtain ⟨b, gap, hgap⟩ := List.exists_cons_of_ne_nil s.gap_ne
  have hblank : isBlank b = true := s.gap_blank b (by simp [hgap])
  have hb : isHexDigit b = false := Bool.eq_false_iff.2 fun hdigit => by
    rw [not_isBlank_of_isHexDigit hdigit] at hblank
    cases hblank
  have hlabel : startsLabel ('<' :: (s.label ++ '>' :: after)) = true :=
    startsLabel_iff.2 ⟨s.label, after, rfl, s.label_ne, s.label_open⟩
  have hnumber : s.number ++ after =
      s.digits ++ b :: (gap ++ '<' :: (s.label ++ '>' :: after)) := by
    simp [ShownTarget.number, hgap]
  have hgaps : (b :: (gap ++ '<' :: (s.label ++ '>' :: after))).dropWhile isBlank =
      '<' :: (s.label ++ '>' :: after) := by
    rw [← List.cons_append, ← hgap, dropWhile_append_cons s.gap_blank (by decide)]
  unfold startsTarget
  dsimp only
  rw [s.getD_after?_text, hnumber, takeWhile_append_cons hhex hb, dropWhile_append_cons hhex hb,
    hgaps, hlabel, List.head?_cons, Option.any_some, hblank, if_pos]
  simpa using hne

theorem startsTarget_iff : startsTarget cs = some digits ↔
    ∃ s : ShownTarget, s.digits = digits ∧ s.text <+: cs := by
  constructor
  · exact exists_shownTarget
  · rintro ⟨s, rfl, after, rfl⟩
    exact startsTarget_text s after

/-! ## The first target -/

/-- Whether a target may start behind a text. Where there is no text, `fresh` says so. -/
def freshBehind (fresh : Bool) (before : List Char) : Bool :=
  (before.getLast?.map fun c => isBlank c || c == ',').getD fresh

def targetAt? (fresh : Bool) (cs : List Char) (p : Nat) : Option (List Char) :=
  if freshBehind fresh (cs.take p) then startsTarget (cs.drop p) else none

theorem targetAt?_succ (fresh : Bool) (c : Char) (cs : List Char) (p : Nat) :
    targetAt? fresh (c :: cs) (p + 1) = targetAt? (isBlank c || c == ',') cs p := by
  have hfresh : freshBehind fresh (c :: cs.take p) =
      freshBehind (isBlank c || c == ',') (cs.take p) := by
    rw [freshBehind, freshBehind, List.getLast?_cons]
    cases (cs.take p).getLast? <;> rfl
  rw [targetAt?, targetAt?, List.take_succ_cons, List.drop_succ_cons, hfresh]

theorem targetDigits_eq (fresh : Bool) (cs : List Char) :
    targetDigits fresh cs = (List.range (cs.length + 1)).findSome? (targetAt? fresh cs) := by
  induction cs generalizing fresh with
  | nil => cases fresh <;> rfl
  | cons c cs ih =>
    have hstart : (if fresh = true then startsTarget (c :: cs) else none) =
        targetAt? fresh (c :: cs) 0 := rfl
    have hrest : targetAt? fresh (c :: cs) ∘ Nat.succ = targetAt? (isBlank c || c == ',') cs :=
      funext fun p => targetAt?_succ fresh c cs p
    rw [targetDigits, List.length_cons, List.range_succ_eq_map, List.findSome?_cons,
      List.findSome?_map, hrest, ← ih, hstart]
    cases targetAt? fresh (c :: cs) 0 <;> rfl

theorem findSome?_range_eq_some_iff {α : Type} {f : Nat → Option α} {n : Nat} {a : α} :
    (List.range n).findSome? f = some a ↔ ∃ p < n, f p = some a ∧ ∀ q < p, f q = none := by
  induction n with
  | zero => simp
  | succ n ih =>
    rw [List.range_succ, List.findSome?_append, List.findSome?_singleton, Option.or_eq_some_iff, ih,
      List.findSome?_eq_none_iff]
    constructor
    · rintro (⟨p, hp, hsome, hnone⟩ | ⟨hnone, hsome⟩)
      · exact ⟨p, Nat.lt_succ_of_lt hp, hsome, hnone⟩
      · exact ⟨n, Nat.lt_succ_self n, hsome, fun q hq => hnone q (List.mem_range.2 hq)⟩
    · rintro ⟨p, hp, hsome, hnone⟩
      rcases Nat.lt_succ_iff_lt_or_eq.1 hp with hlt | rfl
      · exact .inl ⟨p, hlt, hsome, hnone⟩
      · exact .inr ⟨fun q hq => hnone q (List.mem_range.1 hq), hsome⟩

/-- A target is shown at a place: at the very start, behind a blank or behind a comma. -/
def ShownAt (cs : List Char) (p : Nat) (s : ShownTarget) : Prop :=
  (∀ c ∈ (cs.take p).getLast?, isBlank c = true ∨ c = ',') ∧ s.text <+: cs.drop p

def ShownFirst (cs : List Char) (s : ShownTarget) : Prop :=
  ∃ p, ShownAt cs p s ∧ ∀ q s', ShownAt cs q s' → p ≤ q

theorem targetAt?_eq_some_iff {p : Nat} : targetAt? true cs p = some digits ↔
    ∃ s, s.digits = digits ∧ ShownAt cs p s := by
  have hfresh : freshBehind true (cs.take p) = true ↔
      ∀ c ∈ (cs.take p).getLast?, isBlank c = true ∨ c = ',' := by
    rw [freshBehind]
    cases (cs.take p).getLast? <;> simp
  rw [targetAt?, Option.ite_none_right_eq_some, hfresh, startsTarget_iff]
  exact ⟨fun ⟨h, s, hdigits, htext⟩ => ⟨s, hdigits, h, htext⟩,
    fun ⟨s, hdigits, h, htext⟩ => ⟨h, s, hdigits, htext⟩⟩

theorem targetAt?_eq_none_iff {p : Nat} : targetAt? true cs p = none ↔ ∀ s, ¬ ShownAt cs p s := by
  rw [← Option.not_isSome_iff_eq_none, Option.isSome_iff_exists]
  simp only [targetAt?_eq_some_iff]
  exact ⟨fun h s hs => h ⟨_, s, rfl, hs⟩, fun h ⟨_, s, _, hs⟩ => h s hs⟩

theorem ShownAt.lt_length {p : Nat} {s : ShownTarget} (h : ShownAt cs p s) : p < cs.length := by
  by_contra hge
  have hnil := h.2
  rw [List.drop_eq_nil_of_le (Nat.le_of_not_lt hge), List.prefix_nil, ShownTarget.text,
    ShownTarget.number] at hnil
  simp at hnil

theorem targetDigits_eq_some_iff : targetDigits true cs = some digits ↔
    ∃ s, ShownFirst cs s ∧ s.digits = digits := by
  rw [targetDigits_eq, findSome?_range_eq_some_iff]
  simp only [targetAt?_eq_some_iff, targetAt?_eq_none_iff]
  constructor
  · rintro ⟨p, _, ⟨s, hdigits, hs⟩, hnone⟩
    refine ⟨s, ⟨p, hs, fun q s' hs' => ?_⟩, hdigits⟩
    by_contra hlt
    exact hnone q (Nat.lt_of_not_le hlt) s' hs'
  · rintro ⟨s, ⟨p, hs, hfirst⟩, hdigits⟩
    refine ⟨p, Nat.lt_succ_of_lt hs.lt_length, ⟨s, hdigits, hs⟩, fun q hq s' hs' => ?_⟩
    exact Nat.not_le_of_lt hq (hfirst q s' hs')

theorem targetDigits_eq_none_iff : targetDigits true cs = none ↔ ∀ p s, ¬ ShownAt cs p s := by
  rw [targetDigits_eq, List.findSome?_eq_none_iff]
  simp only [targetAt?_eq_none_iff, List.mem_range]
  exact ⟨fun h p s hs => h p (Nat.lt_succ_of_lt hs.lt_length) s hs, fun h p _ s hs => h p s hs⟩

/-! ## Both patterns -/

theorem word32?_digits_eq_none_iff (s : ShownTarget) :
    word32? s.digits = none ↔ UInt32.size ≤ hexValue s.digits := by
  rw [← Option.not_isSome_iff_eq_none, Option.isSome_iff_exists]
  simp only [word32?_eq_some_iff, s.digits_hex, true_and]
  constructor
  · intro h
    by_contra hlt
    exact h ⟨UInt32.ofNat (hexValue s.digits),
      (UInt32.toNat_ofNat_of_lt' (Nat.lt_of_not_le hlt)).symm⟩
  · rintro hle ⟨a, ha⟩
    exact Nat.not_le_of_lt a.toNat_lt_size (ha ▸ hle)

/-- An operand has a displaced label exactly if `<label+0x...>` stands in it. The shown target is the
number of the target that is shown first, if it has 32 bits. There is none if no target is shown, or
if this one is larger. -/
theorem patterns_iff (cs : List Char) :
    (hasDisplacedLabel cs = true ↔ ∃ d : DisplacedLabel, d.text <:+: cs) ∧
    (∀ s s', ShownFirst cs s → ShownFirst cs s' → s.digits = s'.digits) ∧
    (∀ a, displayedTarget cs = some a ↔ ∃ s, ShownFirst cs s ∧ hexValue s.digits = a.toNat) ∧
    (displayedTarget cs = none ↔ (∀ p s, ¬ ShownAt cs p s) ∨
      ∃ s, ShownFirst cs s ∧ UInt32.size ≤ hexValue s.digits) := by
  refine ⟨hasDisplacedLabel_iff, fun s s' hs hs' => ?_, fun a => ?_, ?_⟩
  · have h := targetDigits_eq_some_iff.2 ⟨s, hs, rfl⟩
    rw [targetDigits_eq_some_iff.2 ⟨s', hs', rfl⟩] at h
    exact (Option.some.inj h).symm
  · rw [displayedTarget, Option.bind_eq_some_iff]
    simp only [targetDigits_eq_some_iff, word32?_eq_some_iff]
    constructor
    · rintro ⟨_, ⟨s, hs, rfl⟩, _, hvalue⟩
      exact ⟨s, hs, hvalue⟩
    · rintro ⟨s, hs, hvalue⟩
      exact ⟨s.digits, ⟨s, hs, rfl⟩, s.digits_hex, hvalue⟩
  · rw [displayedTarget, Option.bind_eq_none_iff]
    constructor
    · intro h
      cases hdigits : targetDigits true cs with
      | none => exact .inl (targetDigits_eq_none_iff.1 hdigits)
      | some digits =>
        obtain ⟨s, hs, rfl⟩ := targetDigits_eq_some_iff.1 hdigits
        exact .inr ⟨s, hs, (word32?_digits_eq_none_iff s).1 (h _ hdigits)⟩
    · rintro (hnone | ⟨s, hs, hlarge⟩) digits hdigits
      · rw [targetDigits_eq_none_iff.2 hnone] at hdigits
        cases hdigits
      · rw [targetDigits_eq_some_iff.2 ⟨s, hs, rfl⟩, Option.some.injEq] at hdigits
        rw [← hdigits, word32?_digits_eq_none_iff]
        exact hlarge

end TraceCoverage.Operands

import TraceCoverage.Proofs.Text.Scanning
import TraceCoverage.Trace.Format
import Mathlib.Data.List.Basic
import Mathlib.Tactic.IntervalCases

/-!
# Commit lines as they are printed

A simulator prints a commit with the hart, maybe the privilege level, the program counter and the
opcode, and whatever it has to say behind them. Reading finds the numbers again: nothing stands in
front of the program counter that could pass for one, and nothing behind the opcode is looked at.
-/

namespace TraceCoverage

open Text

/-! ## Numbers and gaps -/

namespace Text

variable {c : Char} {cs : List Char}

theorem isHexDigit_toUpper (h : isHexDigit c = true) :
    isHexDigit c.toUpper = true ∧ hexDigit c.toUpper = hexDigit c := by
  simp only [isHexDigit, Bool.or_eq_true, Bool.and_eq_true, decide_eq_true_eq, Char.le_def,
    UInt32.le_iff_toNat_le] at h
  have hbounds : (0x30 ≤ c.toNat ∧ c.toNat ≤ 0x39 ∨ 0x61 ≤ c.toNat ∧ c.toNat ≤ 0x66) ∨
      0x41 ≤ c.toNat ∧ c.toNat ≤ 0x46 := h
  rw [← Char.ofNat_toNat c]
  generalize c.toNat = n at hbounds
  rcases hbounds with (⟨hlow, hhigh⟩ | ⟨hlow, hhigh⟩) | ⟨hlow, hhigh⟩ <;>
    interval_cases n <;> decide

theorem hexValue_map_toUpper (h : ∀ c ∈ cs, isHexDigit c = true) :
    hexValue (cs.map Char.toUpper) = hexValue cs := by
  rw [hexValue, List.foldl_map]
  exact List.foldl_ext _ _ _ fun n c hc => by rw [(isHexDigit_toUpper (h c hc)).2]

theorem hexValue_zeros_append (zeros : Nat) (cs : List Char) :
    hexValue (List.replicate zeros '0' ++ cs) = hexValue cs := by
  induction zeros with
  | zero => rfl
  | succ zeros ih =>
    rw [List.replicate_succ, List.cons_append, hexValue, List.foldl_cons]
    exact ih

end Text

/-- A number in hexadecimal digits of either case, with any zeros in front. -/
structure Numeral (n : Nat) where
  digits : List Char
  digits_hex : isHex digits = true
  hexValue_digits : hexValue digits = n

namespace Numeral

variable {n : Nat}

theorem word32?_digits {w : UInt32} (d : Numeral w.toNat) : word32? d.digits = some w :=
  word32?_eq_some_iff.2 ⟨d.digits_hex, d.hexValue_digits⟩

theorem hex?_digits {bits : Nat} (d : Numeral n) (h : n < Nat.pow 2 bits) :
    hex? bits d.digits = some n := by
  rw [hex?, d.hexValue_digits, d.digits_hex, if_pos (by simpa using h)]

def padded (zeros : Nat) (upper : Bool) (n : Nat) : Numeral n where
  digits :=
    List.replicate zeros '0' ++
      if upper then (toHex n).toList.map Char.toUpper else (toHex n).toList
  digits_hex := by
    obtain ⟨hne, hhex⟩ := isHex_iff.1 (hexValue_toHex n).1
    refine isHex_iff.2 ⟨by cases upper <;> simp_all, fun c hc => ?_⟩
    rcases List.mem_append.1 hc with hc | hc
    · rw [(List.mem_replicate.1 hc).2]
      decide
    · split at hc
      next =>
        obtain ⟨d, hd, rfl⟩ := List.mem_map.1 hc
        exact (isHexDigit_toUpper (hhex d hd)).1
      next => exact hhex c hc
  hexValue_digits := by
    rw [hexValue_zeros_append]
    split
    next => rw [hexValue_map_toUpper (isHex_iff.1 (hexValue_toHex n).1).2, (hexValue_toHex n).2]
    next => exact (hexValue_toHex n).2

end Numeral

structure Blanks where
  text : List Char
  blank : ∀ c ∈ text, isBlank c = true

def Blanks.spaces (n : Nat) : Blanks where
  text := List.replicate n ' '
  blank := isBlank_of_mem_replicate

/-! ## Searching a line -/

namespace Commit

variable {front gap pc opcode : List Char}

theorem startsCommit_eq_none {c : Char} {cs : List Char} (h : ∀ d ∈ cs.head?, d ≠ 'x') :
    startsCommit (c :: cs) = none := by
  have hnone : after? "0x".toList (c :: cs) = none := by
    cases cs with
    | nil => simp [after?]
    | cons d rest => simp [after?, (h d rfl).symm]
  rw [startsCommit, hnone]
  rfl

theorem digits?_append (h : 'x' ∉ front) (cs : List Char) :
    digits? (front ++ '0' :: cs) = digits? ('0' :: cs) := by
  induction front with
  | nil => rfl
  | cons c front ih =>
    rw [List.mem_cons, not_or] at h
    have hhead : ∀ d ∈ (front ++ '0' :: cs).head?, d ≠ 'x' := by
      cases front with
      | nil => simp
      | cons d front =>
        rintro _ ⟨rfl⟩ rfl
        exact h.2 List.mem_cons_self
    rw [List.cons_append, digits?, startsCommit_eq_none hhead, Option.none_or, ih h.2]

theorem startsCommit_append (hpc : isHex pc = true) (hgap : ∀ c ∈ gap, isBlank c = true)
    (hne : gap ≠ []) (hopcode : isHex opcode = true) (rest : List Char) :
    startsCommit ("0x".toList ++ (pc ++ (gap ++ ("(0x".toList ++ (opcode ++ ')' :: rest))))) =
      some (pc, opcode) := by
  obtain ⟨hpc_ne, hpc⟩ := isHex_iff.1 hpc
  obtain ⟨hopcode_ne, hopcode⟩ := isHex_iff.1 hopcode
  obtain ⟨c, more, rfl⟩ := List.exists_cons_of_ne_nil hne
  have hc : isBlank c = true := hgap c List.mem_cons_self
  have hstop : isHexDigit c = false := by
    rw [Bool.eq_false_iff]
    intro hdigit
    rw [not_isBlank_of_isHexDigit hdigit] at hc
    cases hc
  have hclose : isHexDigit ')' = false := by decide
  have hopen : trimStart (c :: more ++ ("(0x".toList ++ (opcode ++ ')' :: rest))) =
      "(0x".toList ++ (opcode ++ ')' :: rest) := by
    rw [trimStart_append hgap]
    exact trimStart_eq_self_iff.2 (by rintro _ ⟨rfl⟩; decide)
  rw [startsCommit, after?_append, Option.bind_some]
  dsimp only
  rw [List.cons_append, takeWhile_append_cons hpc hstop, dropWhile_append_cons hpc hstop,
    ← List.cons_append, hopen, after?_append, Option.bind_some,
    takeWhile_append_cons hopcode hclose, dropWhile_append_cons hopcode hclose]
  simp [hpc_ne, hopcode_ne, hc]

end Commit

/-! ## Lines -/

/-- A commit as the simulator prints it, with anything behind it. -/
structure PrintedCommit where
  lead : Blanks := .spaces 0
  hartGap : Blanks := .spaces 3
  hart : Nat
  pcGap : Blanks := .spaces 1
  privilege : Option Char := none
  privilege_digit : ∀ p ∈ privilege, p.isDigit = true := by simp
  privilegeGap : Blanks := .spaces 1
  pc : UInt64
  pcText : Numeral pc.toNat
  opcodeGap : Blanks := .spaces 1
  opcodeGap_ne : opcodeGap.text ≠ [] := by decide
  opcode : UInt32
  opcodeText : Numeral opcode.toNat
  rest : List Char := []

namespace PrintedCommit

variable (c : PrintedCommit)

def origin : List Char :=
  c.hartGap.text ++ (Nat.toDigits 10 c.hart ++ ':' :: (c.pcGap.text ++
    c.privilege.toList.flatMap fun p => p :: c.privilegeGap.text))

def numbers (rest : List Char) : List Char :=
  "0x".toList ++ (c.pcText.digits ++ (c.opcodeGap.text ++
    ("(0x".toList ++ (c.opcodeText.digits ++ ')' :: rest))))

def text : List Char := c.lead.text ++ ("core".toList ++ (c.origin ++ c.numbers c.rest))

theorem not_mem_origin : 'x' ∉ c.origin := by
  have hgap : ∀ b : Blanks, 'x' ∉ b.text := fun b hmem => absurd (b.blank _ hmem) (by decide)
  have hhart : 'x' ∉ Nat.toDigits 10 c.hart := fun hmem =>
    absurd (Nat.isDigit_of_mem_toDigits (by decide) (by decide) hmem) (by decide)
  have hprivilege : ∀ p ∈ c.privilege, p ≠ 'x' := by
    rintro p hp rfl
    exact absurd (c.privilege_digit _ hp) (by decide)
  simp only [origin, List.mem_append, List.mem_cons, List.mem_flatMap, Option.mem_toList, not_or,
    not_exists, not_and]
  exact ⟨hgap _, hhart, by decide, hgap _, fun p hp => ⟨(hprivilege p hp).symm, hgap _⟩⟩

theorem digits?_numbers (rest : List Char) :
    Commit.digits? (c.numbers rest) = some (c.pcText.digits, c.opcodeText.digits) := by
  have hstarts := Commit.startsCommit_append c.pcText.digits_hex c.opcodeGap.blank c.opcodeGap_ne
    c.opcodeText.digits_hex rest
  rw [← numbers] at hstarts
  have hcons : c.numbers rest = '0' :: (c.numbers rest).tail := rfl
  rw [hcons] at hstarts ⊢
  rw [Commit.digits?, hstarts, Option.some_or]

theorem trim_text : trim c.text = "core".toList ++ (c.origin ++ c.numbers (trimEnd c.rest)) := by
  have hstart : trimStart c.text = "core".toList ++ (c.origin ++ c.numbers c.rest) := by
    rw [text, trimStart_append c.lead.blank]
    exact trimStart_eq_self_iff.2 (by rintro _ ⟨rfl⟩; decide)
  have hsplit : ∀ rest, "core".toList ++ (c.origin ++ c.numbers rest) =
      "core".toList ++ (c.origin ++ ("0x".toList ++ (c.pcText.digits ++ (c.opcodeGap.text ++
        ("(0x".toList ++ c.opcodeText.digits))))) ++ ')' :: rest := by
    simp [numbers]
  rw [trim, hstart, hsplit, trimEnd_append_cons _ _ (by decide), ← hsplit]

theorem digits?_trim_text :
    Commit.digits? (trim c.text) = some (c.pcText.digits, c.opcodeText.digits) := by
  have hfront : 'x' ∉ "core".toList ++ c.origin := by
    rw [List.mem_append, not_or]
    exact ⟨by decide, c.not_mem_origin⟩
  have hcons : c.numbers (trimEnd c.rest) = '0' :: (c.numbers (trimEnd c.rest)).tail := rfl
  rw [c.trim_text, ← List.append_assoc, hcons, Commit.digits?_append hfront, ← hcons,
    c.digits?_numbers]

end PrintedCommit

namespace Commit

theorem ofLine?_text (c : PrintedCommit) :
    ofLine? c.text = some { pc := c.pc.toUInt32, opcode := c.opcode } := by
  have hcore : "core".toList.isPrefixOf (trim c.text) = true := by
    rw [c.trim_text]
    exact List.isPrefixOf_iff_prefix.2 (List.prefix_append _ _)
  have hpc : hex? 64 c.pcText.digits = some c.pc.toNat := c.pcText.hex?_digits c.pc.toNat_lt
  rw [ofLine?, if_pos hcore, c.digits?_trim_text]
  dsimp only
  rw [hpc, c.opcodeText.word32?_digits]
  rfl

theorem toUInt32_of_extended {pc : UInt64} {a : Address}
    (h : pc = a.toUInt64 ∨ pc = a.toInt32.toInt64.toUInt64) : pc.toUInt32 = a := by
  rcases h with rfl | rfl
  · exact UInt32.toUInt32_toUInt64 a
  · apply UInt32.toBitVec_inj.1
    ext i hi
    simp [BitVec.getLsbD_signExtend, hi]
    omega

/-- A printed commit is read as the lower 32 bits of its program counter and its opcode, so an
address counts the same with zeros and with copies of its sign in front of it. A line that does not
start with `core` is read as nothing. -/
theorem ofLine?_printed :
    (∀ c : PrintedCommit,
      ofLine? c.text = some { pc := c.pc.toUInt32, opcode := c.opcode }) ∧
      (∀ (c : PrintedCommit) (a : Address),
        c.pc = a.toUInt64 ∨ c.pc = a.toInt32.toInt64.toUInt64 →
          ofLine? c.text = some { pc := a, opcode := c.opcode }) ∧
      ∀ line, ¬ "core".toList <+: trim line → ofLine? line = none := by
  refine ⟨ofLine?_text, fun c a ha => ?_, fun line hline => ?_⟩
  · rw [ofLine?_text, toUInt32_of_extended ha]
  · rw [ofLine?, if_neg (by rwa [List.isPrefixOf_iff_prefix])]

/-- A commit at 0x80000010, logged with copies of the sign. The register behind it is in capital
letters, and looks like an opcode. -/
def signedCommit : PrintedCommit where
  hart := 0
  privilege := some '3'
  pc := 0xffffffff80000010
  pcText := .padded 0 false _
  opcode := 0x00050863
  opcodeText := .padded 3 false _
  rest := " x5 0xABCD (0xEF)".toList

theorem ofLine?_printed_signed :
    signedCommit.text = "core   0: 3 0xffffffff80000010 (0x00050863) x5 0xABCD (0xEF)".toList ∧
      ofLine? signedCommit.text = some { pc := 0x80000010, opcode := 0x00050863 } ∧
      ofLine? "bbl loader".toList = none := by
  obtain ⟨_, hextended, hother⟩ := ofLine?_printed
  have hloader : ¬ "core".toList <+: trim "bbl loader".toList := by decide
  exact ⟨by decide +kernel, hextended signedCommit 0x80000010 (.inr (by decide)), hother _ hloader⟩

end Commit

end TraceCoverage

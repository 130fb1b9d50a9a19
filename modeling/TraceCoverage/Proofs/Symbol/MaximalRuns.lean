import TraceCoverage.Proofs.Symbol.Execution
import TraceCoverage.Proofs.Symbol.Folding
import Mathlib.Data.List.Sort
import Mathlib.Data.List.TakeWhile

/-!
# Ranges are the maximal runs

A run of missed instructions is maximal if the instruction before it ran, or there is none, and the
next one behind it ran, or the map ends there. Such runs lie behind each other, every missed
instruction is in one of them, and so nothing else can be the list of ranges.
-/

namespace TraceCoverage

namespace CoverageMap

variable {m : CoverageMap} {a b first first' last last' : Address} {n n' : Nat}
  {before l : List Address}

/-! ## Maximal runs -/

def startBefore? (m : CoverageMap) (a : Address) : Option Address :=
  (m.starts.filter (· < a)).getLast?

def ranBehind? (m : CoverageMap) (a : Address) : Option Address :=
  m.starts.find? fun b => a < b && (m.flagsAt b).isExecuted

/-- A run of missed instructions with nothing missed before it, up to the next one that ran or to
the end of the map. -/
structure MissedRun (m : CoverageMap) (first last : Address) (n : Nat) : Prop where
  start : first ∈ m.starts
  missed : (m.flagsAt first).isExecuted = false
  opens : ∀ b ∈ m.startBefore? first, (m.flagsAt b).isExecuted = true
  closes : last = ((m.ranBehind? first).map (· - 1)).getD m.high
  count : n = m.starts.countP fun a => first ≤ a && a ≤ last

theorem le_close {next? : Option Address} (hb : m.contains b = true)
    (hlt : ∀ e ∈ next?, b < e) : b ≤ (next?.map (· - 1)).getD m.high := by
  cases next? with
  | none =>
    have hnat := contains_iff.1 hb
    rw [Option.map_none, Option.getD_none, UInt32.le_iff_toNat_le, toNat_high]
    omega
  | some e =>
    have hbe := hlt e rfl
    have hnat := UInt32.lt_iff_toNat_lt.1 hbe
    rw [Option.map_some, Option.getD_some, UInt32.le_iff_toNat_le, Address.toNat_sub_one_of_lt hbe]
    omega

theorem sub_one_lt {e : Address} (hlt : a < e) (hle : e ≤ b) : e - 1 < b := by
  have hnat := UInt32.lt_iff_toNat_lt.1 hlt
  rw [UInt32.le_iff_toNat_le] at hle
  rw [UInt32.lt_iff_toNat_lt, Address.toNat_sub_one_of_lt hlt]
  omega

namespace MissedRun

theorem last_lt (h : m.MissedRun first last n) (hb : b ∈ m.starts) (hlt : first < b)
    (hran : (m.flagsAt b).isExecuted = true) : last < b := by
  obtain ⟨e, he⟩ : ∃ e, m.ranBehind? first = some e := by
    rw [← Option.isSome_iff_exists, ranBehind?, List.find?_isSome]
    exact ⟨b, hb, by simp [hlt, hran]⟩
  have hclose := h.closes
  rw [he] at hclose
  obtain ⟨hpassed, earlier, later, hsplit, hearlier⟩ := List.find?_eq_some_iff_append.1 he
  have hfirst : first < e := by
    rw [Bool.and_eq_true, decide_eq_true_eq] at hpassed
    exact hpassed.1
  have hle : e ≤ b := by
    have hsorted := m.starts_pairwise
    rw [hsplit] at hb hsorted
    rcases List.mem_append.1 hb with hb | hb
    · have hno := hearlier b hb
      simp [hlt, hran] at hno
    · rcases List.mem_cons.1 hb with rfl | hb
      · exact UInt32.le_refl _
      · exact UInt32.le_of_lt ((List.pairwise_cons.1 (List.pairwise_append.1 hsorted).2.1).1 b hb)
  rw [hclose, Option.map_some, Option.getD_some]
  exact sub_one_lt hfirst hle

theorem not_executed (h : m.MissedRun first last n) (ha : a ∈ m.starts) (hfirst : first ≤ a)
    (hlast : a ≤ last) : (m.flagsAt a).isExecuted = false := by
  by_contra hran
  rw [Bool.not_eq_false] at hran
  have hne : first ≠ a := by
    rintro rfl
    rw [h.missed] at hran
    cases hran
  have hlt := h.last_lt ha (UInt32.lt_of_le_of_ne hfirst hne) hran
  exact absurd hlast (UInt32.not_le.2 hlt)

theorem last_lt_first (h : m.MissedRun first last n) (h' : m.MissedRun first' last' n')
    (hlt : first < first') : last < first' := by
  -- The instruction before the second run ran, and stands behind the start of the first run.
  have hne : m.starts.filter (· < first') ≠ [] :=
    List.ne_nil_of_mem (List.mem_filter.2 ⟨h.start, by simpa using hlt⟩)
  obtain ⟨b, hb⟩ : ∃ b, m.startBefore? first' = some b := ⟨_, List.getLast?_eq_some_getLast hne⟩
  have hran := h'.opens b hb
  obtain ⟨init, hsplit⟩ := List.getLast?_eq_some_iff.1 hb
  obtain ⟨hmem, hbefore⟩ := List.mem_filter.1 (List.mem_of_getLast? hb)
  have hin : first ∈ init ++ [b] := by
    rw [← hsplit]
    exact List.mem_filter.2 ⟨h.start, by simpa using hlt⟩
  have hfirst : first < b := by
    rcases List.mem_append.1 hin with hin | hin
    · have hsorted := m.starts_pairwise.filter (· < first')
      rw [hsplit] at hsorted
      exact (List.pairwise_append.1 hsorted).2.2 first hin b List.mem_cons_self
    · obtain rfl := List.mem_singleton.1 hin
      rw [h.missed] at hran
      cases hran
  exact UInt32.lt_trans (h.last_lt hmem hfirst hran) (by simpa using hbefore)

theorem unique (h : m.MissedRun first last n) (h' : m.MissedRun first last' n') :
    last = last' ∧ n = n' := by
  have hlast : last = last' := h.closes.trans h'.closes.symm
  subst hlast
  exact ⟨rfl, h.count.trans h'.count.symm⟩

end MissedRun

/-! ## What the scan finds -/

section

variable {inside behind : List Address}
  (hinside : ∀ b ∈ inside, (m.flagsAt b).isExecuted = false)
  (hbehind : ∀ b ∈ behind.head?, (m.flagsAt b).isExecuted = true)
include hinside hbehind

theorem runs_some (first : Address) (n : Nat) :
    m.runs (some (first, n)) (inside ++ behind) =
      (first, (behind.head?.map (· - 1)).getD m.high, n + inside.length) :: m.runs none behind := by
  induction inside generalizing n with
  | nil =>
    cases behind with
    | nil => rfl
    | cons b rest =>
      rw [List.nil_append, runs_cons, runs_cons, if_pos (hbehind b rfl), if_pos (hbehind b rfl)]
      rfl
  | cons a rest ih =>
    obtain ⟨ha, hrest⟩ := List.forall_mem_cons.1 hinside
    rw [List.cons_append, runs_cons, if_neg (by simp [ha]), extend, ih hrest, List.length_cons]
    congr 3
    omega

theorem runs_none (ha : (m.flagsAt a).isExecuted = false) :
    m.runs none (a :: (inside ++ behind)) =
      (a, (behind.head?.map (· - 1)).getD m.high, 1 + inside.length) :: m.runs none behind := by
  rw [runs_cons, if_neg (by simp [ha]), extend, runs_some hinside hbehind]

end

/-- Some instructions are none, or one that ran and more, or a run of missed ones up to one that
ran. -/
theorem run_induction (m : CoverageMap) {P : List Address → Prop} (nil : P [])
    (ran : ∀ a rest, (m.flagsAt a).isExecuted = true → P rest → P (a :: rest))
    (missed : ∀ a inside behind, (m.flagsAt a).isExecuted = false →
      (∀ b ∈ inside, (m.flagsAt b).isExecuted = false) →
      (∀ b ∈ behind.head?, (m.flagsAt b).isExecuted = true) → P behind →
        P (a :: (inside ++ behind)))
    (l : List Address) : P l := by
  induction hn : l.length using Nat.strong_induction_on generalizing l with
  | h n ih =>
    cases l with
    | nil => exact nil
    | cons a rest =>
      have hlt : rest.length < n := by
        rw [← hn]
        exact Nat.lt_succ_self _
      by_cases hran : (m.flagsAt a).isExecuted = true
      · exact ran a rest hran (ih _ hlt rest rfl)
      · have hdrop :=
          (List.dropWhile_sublist (l := rest) fun a => !(m.flagsAt a).isExecuted).length_le
        rw [← List.takeWhile_append_dropWhile (p := fun a => !(m.flagsAt a).isExecuted) (l := rest)]
        refine missed a _ _ (Bool.eq_false_iff.2 hran) (fun b hb => ?_) (fun b hb => ?_)
          (ih _ (Nat.lt_of_le_of_lt hdrop hlt) _ rfl)
        · simpa using List.mem_takeWhile_imp hb
        · have hhead := List.head?_dropWhile_not (fun a => !(m.flagsAt a).isExecuted) rest
          rw [hb] at hhead
          simpa using hhead

theorem firsts_sublist (l : List Address) : ((m.runs none l).map (·.1)).Sublist l := by
  induction l using m.run_induction with
  | nil => exact .slnil
  | ran a rest hran ih =>
    rw [runs_cons, if_pos hran]
    exact ih.cons a
  | missed a inside behind ha hinside hbehind ih =>
    rw [runs_none hinside hbehind ha, List.map_cons]
    exact (ih.trans (List.sublist_append_right inside behind)).cons_cons a

section

variable {inside behind : List Address} (hsplit : m.starts = before ++ a :: (inside ++ behind))
include hsplit

theorem startBefore?_of_split : m.startBefore? a = before.getLast? := by
  have hsorted := m.starts_pairwise
  rw [hsplit, List.pairwise_append, List.pairwise_cons] at hsorted
  obtain ⟨_, ⟨hrest, _⟩, hbefore⟩ := hsorted
  have hkept : before.filter (· < a) = before :=
    List.filter_eq_self.2 fun b hb => by simpa using hbefore b hb a List.mem_cons_self
  have hdropped : (a :: (inside ++ behind)).filter (· < a) = [] := by
    refine List.filter_eq_nil_iff.2 fun b hb => ?_
    rw [decide_eq_true_eq, UInt32.not_lt]
    rcases List.mem_cons.1 hb with rfl | hb
    · exact UInt32.le_refl _
    · exact UInt32.le_of_lt (hrest b hb)
  rw [startBefore?, hsplit, List.filter_append, hkept, hdropped, List.append_nil]

theorem countP_of_split :
    (m.starts.countP fun b => a ≤ b && b ≤ (behind.head?.map (· - 1)).getD m.high) =
      1 + inside.length := by
  have hsorted := m.starts_pairwise
  rw [hsplit, List.pairwise_append, List.pairwise_cons, List.pairwise_append] at hsorted
  obtain ⟨_, ⟨hrest, _, hin, hbetween⟩, hearlier⟩ := hsorted
  generalize hlast : (behind.head?.map (· - 1)).getD m.high = last
  -- The starts before come too early and those behind too late, so those of the run are left.
  have hnone : before.countP (fun b => a ≤ b && b ≤ last) = 0 := by
    refine List.countP_eq_zero.2 fun b hb => ?_
    have hlt := hearlier b hb a List.mem_cons_self
    simp [UInt32.not_le.2 hlt]
  have hall : (a :: inside).countP (fun b => a ≤ b && b ≤ last) = (a :: inside).length := by
    refine List.countP_eq_length.2 fun b hb => ?_
    have hstart : b ∈ m.starts := by
      rw [hsplit]
      simp only [List.mem_append, List.mem_cons] at hb ⊢
      tauto
    have hfirst : a ≤ b := by
      rcases List.mem_cons.1 hb with rfl | hb
      · exact UInt32.le_refl _
      · exact UInt32.le_of_lt (hrest b (List.mem_append_left _ hb))
    have hbound : b ≤ last := by
      rw [← hlast]
      refine le_close (contains_of_mem_starts hstart) fun e he => ?_
      have hmem := List.mem_of_mem_head? he
      rcases List.mem_cons.1 hb with rfl | hb
      · exact hrest e (List.mem_append_right _ hmem)
      · exact hbetween b hb e hmem
    simp [hfirst, hbound]
  have hlater : behind.countP (fun b => a ≤ b && b ≤ last) = 0 := by
    refine List.countP_eq_zero.2 fun b hb => ?_
    cases behind with
    | nil => cases hb
    | cons e later =>
      have hae : a < e := hrest e (by simp)
      have heb : e ≤ b := by
        rcases List.mem_cons.1 hb with rfl | hb
        · exact UInt32.le_refl _
        · exact UInt32.le_of_lt ((List.pairwise_cons.1 hin).1 b hb)
      have hlt : last < b := by
        rw [← hlast]
        exact sub_one_lt hae heb
      simp [UInt32.not_le.2 hlt]
  rw [hsplit, ← List.cons_append, List.countP_append, List.countP_append, hnone, hall, hlater,
    List.length_cons]
  omega

variable (hinside : ∀ b ∈ inside, (m.flagsAt b).isExecuted = false)
  (hbehind : ∀ b ∈ behind.head?, (m.flagsAt b).isExecuted = true)
include hinside hbehind

theorem ranBehind?_of_split : m.ranBehind? a = behind.head? := by
  have hsorted := m.starts_pairwise
  rw [hsplit, List.pairwise_append, List.pairwise_cons] at hsorted
  obtain ⟨_, ⟨hrest, _⟩, hbefore⟩ := hsorted
  have hno : ∀ b ∈ before, ¬ (decide (a < b) && (m.flagsAt b).isExecuted) = true := by
    intro b hb
    have hlt := hbefore b hb a List.mem_cons_self
    simp [UInt32.le_of_lt hlt]
  have hmissed : ∀ b ∈ inside, ¬ (decide (a < b) && (m.flagsAt b).isExecuted) = true := by
    intro b hb
    simp [hinside b hb]
  rw [ranBehind?, hsplit, List.find?_append, List.find?_eq_none.2 hno, Option.none_or,
    List.find?_cons_of_neg (by simp), List.find?_append, List.find?_eq_none.2 hmissed,
    Option.none_or]
  cases behind with
  | nil => rfl
  | cons e later =>
    have hlt : a < e := hrest e (by simp)
    rw [List.find?_cons_of_pos (by simp [hlt, hbehind e rfl]), List.head?_cons]

theorem missedRun_of_split (hmissed : (m.flagsAt a).isExecuted = false)
    (hbefore : ∀ b ∈ before.getLast?, (m.flagsAt b).isExecuted = true) :
    m.MissedRun a ((behind.head?.map (· - 1)).getD m.high) (1 + inside.length) where
  start := by simp [hsplit]
  missed := hmissed
  opens := by rwa [startBefore?_of_split hsplit]
  closes := by rw [ranBehind?_of_split hsplit hinside hbehind]
  count := (countP_of_split hsplit).symm

end

/-- What the scan finds behind some starts are maximal runs, unless the last of these was missed and
the run that it is in goes on. -/
theorem missedRun_of_mem_runs (before : List Address) (hsplit : m.starts = before ++ l)
    (hbefore : ∀ a ∈ l.head?, (m.flagsAt a).isExecuted = false →
      ∀ b ∈ before.getLast?, (m.flagsAt b).isExecuted = true) :
    ∀ run ∈ m.runs none l, m.MissedRun run.1 run.2.1 run.2.2 := by
  induction l using m.run_induction generalizing before with
  | nil =>
    intro run hrun
    cases hrun
  | ran a rest hran ih =>
    rw [runs_cons, if_pos hran]
    refine ih (before ++ [a]) (by simp [hsplit]) fun _ _ _ b hb => ?_
    rw [List.getLast?_concat, Option.mem_def, Option.some.injEq] at hb
    rwa [← hb]
  | missed a inside behind ha hinside hbehind ih =>
    rw [runs_none hinside hbehind ha, List.forall_mem_cons]
    refine ⟨missedRun_of_split hsplit hinside hbehind ha (hbefore a rfl ha), ?_⟩
    refine ih (before ++ a :: inside) (by simp [hsplit]) fun b hb hno => ?_
    rw [hbehind b hb] at hno
    cases hno

/-! ## Ranges -/

namespace MissedRun

variable (h : m.MissedRun first last n)
include h

theorem bounds : m.contains first = true ∧ m.contains last = true ∧ first ≤ last := by
  have hin := contains_of_mem_starts h.start
  have hclose := h.closes
  cases hnext : m.ranBehind? first with
  | none =>
    rw [hnext, Option.map_none, Option.getD_none] at hclose
    have hpos := m.size_pos
    have hnat := contains_iff.1 hin
    refine ⟨hin, contains_iff.2 ?_, UInt32.le_iff_toNat_le.2 ?_⟩ <;>
      rw [hclose, toNat_high] <;> omega
  | some e =>
    have hpassed := List.find?_some hnext
    rw [Bool.and_eq_true, decide_eq_true_eq] at hpassed
    have hein := contains_iff.1 (contains_of_mem_starts (List.mem_of_find?_eq_some hnext))
    have hlt := UInt32.lt_iff_toNat_lt.1 hpassed.1
    have hnat := contains_iff.1 hin
    rw [hnext, Option.map_some, Option.getD_some] at hclose
    refine ⟨hin, contains_iff.2 ?_, UInt32.le_iff_toNat_le.2 ?_⟩ <;>
      rw [hclose, Address.toNat_sub_one_of_lt hpassed.1] <;> omega

theorem covers_iff {base : Address} (hfits : base.toNat + m.high.toNat < 0x100000000)
    {r : UncoveredRange} (hstart : r.start = base + first) (hlast : r.last = base + last)
    (ha : m.contains a = true) : r.covers (base + a) = true ↔ first ≤ a ∧ a ≤ last := by
  obtain ⟨hfirstin, hlastin, _⟩ := h.bounds
  simp only [UncoveredRange.covers, hstart, hlast, Bool.and_eq_true, decide_eq_true_eq,
    UInt32.le_iff_toNat_le, toNat_base_add hfits hfirstin, toNat_base_add hfits hlastin,
    toNat_base_add hfits ha]
  omega

end MissedRun

/-- The ranges are the maximal runs of missed instructions: they ascend without touching each other,
none of them covers an instruction that ran, and each missed instruction is in one of them. -/
structure MissedRanges (m : CoverageMap) (name : String) (base : Address)
    (ranges : List UncoveredRange) : Prop where
  bounds : ∀ r ∈ ranges, r.start ≤ r.last
  ascending : ranges.Pairwise fun r r' => r.last < r'.start
  maximal : ∀ r ∈ ranges, ∃ first last n, m.MissedRun first last n ∧
    r = {
      symbol := name
      start := base + first
      last := base + last
      instructions := n
      kind := .notExecuted }
  missed : ∀ r ∈ ranges, ∀ a ∈ m.starts, r.covers (base + a) = true →
    (m.flagsAt a).isExecuted = false
  complete : ∀ a ∈ m.starts, (m.flagsAt a).isExecuted = false →
    ranges.countP (·.covers (base + a)) = 1

section

variable {name : String} {base : Address} {ranges ranges' : List UncoveredRange}

theorem missedRun_of_mem {run : Address × Address × Nat} (hrun : run ∈ m.runs none m.starts) :
    m.MissedRun run.1 run.2.1 run.2.2 :=
  missedRun_of_mem_runs [] rfl (by simp) run hrun

theorem missedRanges_uncoveredRanges (name : String)
    (hfits : base.toNat + m.high.toNat < 0x100000000) :
    m.MissedRanges name base (m.uncoveredRanges name base) := by
  constructor
  case bounds =>
    intro r hr
    obtain ⟨run, hrun, rfl⟩ := List.mem_map.1 hr
    obtain ⟨hfirst, hlast, hle⟩ := (missedRun_of_mem hrun).bounds
    rw [UInt32.le_iff_toNat_le] at hle ⊢
    rw [toNat_base_add hfits hfirst, toNat_base_add hfits hlast]
    omega
  case ascending =>
    have hfirsts := m.starts_pairwise.sublist (firsts_sublist (m := m) m.starts)
    rw [List.pairwise_map] at hfirsts
    rw [uncoveredRanges, List.pairwise_map]
    refine hfirsts.imp_of_mem fun {run run'} hrun hrun' hlt => ?_
    have hmissed := missedRun_of_mem hrun
    have hmissed' := missedRun_of_mem hrun'
    have hbehind := UInt32.lt_iff_toNat_lt.1 (hmissed.last_lt_first hmissed' hlt)
    rw [UInt32.lt_iff_toNat_lt, toNat_base_add hfits hmissed.bounds.2.1,
      toNat_base_add hfits hmissed'.bounds.1]
    omega
  case maximal =>
    intro r hr
    obtain ⟨run, hrun, rfl⟩ := List.mem_map.1 hr
    exact ⟨_, _, _, missedRun_of_mem hrun, rfl⟩
  case missed =>
    intro r hr a ha hcovers
    obtain ⟨run, hrun, rfl⟩ := List.mem_map.1 hr
    have hmissed := missedRun_of_mem hrun
    obtain ⟨hfirst, hlast⟩ :=
      (hmissed.covers_iff hfits rfl rfl (contains_of_mem_starts ha)).1 hcovers
    exact hmissed.not_executed ha hfirst hlast
  case complete =>
    intro a ha hran
    obtain ⟨i, hi, hstart, rfl⟩ := mem_starts.1 ha
    rw [flagsAt_address hi] at hran
    rw [countP_covers name hfits hi, misses_of_spans hstart (spans_self hi), hran]
    rfl

theorem MissedRanges.subset (hfits : base.toNat + m.high.toNat < 0x100000000)
    (h : m.MissedRanges name base ranges) (h' : m.MissedRanges name base ranges') :
    ranges ⊆ ranges' := by
  intro r hr
  obtain ⟨first, last, n, hrun, rfl⟩ := h.maximal r hr
  have hone := h'.complete first hrun.start hrun.missed
  obtain ⟨r', hr', hcovers⟩ := List.countP_pos_iff.1 (by rw [hone]; exact Nat.one_pos)
  obtain ⟨first', last', n', hrun', rfl⟩ := h'.maximal r' hr'
  obtain ⟨hfirst, hlast⟩ := (hrun'.covers_iff hfits rfl rfl hrun.bounds.1).1 hcovers
  have heq : first' = first := by
    by_contra hne
    have hlt := hrun'.last_lt_first hrun (UInt32.lt_of_le_of_ne hfirst hne)
    exact absurd hlast (UInt32.not_le.2 hlt)
  subst heq
  obtain ⟨rfl, rfl⟩ := hrun.unique hrun'
  exact hr'

theorem MissedRanges.pairwise_start (h : m.MissedRanges name base ranges) :
    ranges.Pairwise fun r r' => r.start < r'.start :=
  h.ascending.imp_of_mem fun hr _ hlt => UInt32.lt_of_le_of_lt (h.bounds _ hr) hlt

theorem missedRanges_iff (hfits : base.toNat + m.high.toNat < 0x100000000) :
    m.MissedRanges name base ranges ↔ m.uncoveredRanges name base = ranges := by
  have hfound := missedRanges_uncoveredRanges name hfits
  constructor
  · intro h
    have : Std.Irrefl fun r r' : UncoveredRange => r.start < r'.start :=
      ⟨fun r => UInt32.lt_irrefl r.start⟩
    have : Std.Antisymm fun r r' : UncoveredRange => r.start < r'.start :=
      ⟨fun r _ hlt hgt => absurd (UInt32.lt_trans hlt hgt) (UInt32.lt_irrefl r.start)⟩
    exact hfound.pairwise_start.eq_of_mem_iff h.pairwise_start fun r =>
      ⟨fun hr => hfound.subset hfits h hr, fun hr => h.subset hfits hfound hr⟩
  · rintro rfl
    exact hfound

end

theorem high_analyzed (m : CoverageMap) (base : Address) (lines : List CodeLine) :
    (m.markLines base lines).1.fillPadding.high = m.high := by
  obtain ⟨g, _, hmark⟩ := (folds_fillPadding (m.markLines base lines).1).inert
  rw [hmark, high_mark, markLines, foldl_markLine_eq_mark, high_mark]

end CoverageMap

/-- What an analysis reports as not executed are the maximal runs of missed instructions of the map
that it leaves, and no other list of ranges says the same. -/
theorem Symbol.ranges_analyze_iff {s : Symbol} {m : CoverageMap} (hunified : s.unified = some m)
    (hfits : s.base.toNat + m.high.toNat < 0x100000000) :
    ∃ filled, s.analyze.unified = some filled ∧
      ∀ ranges, filled.MissedRanges s.name s.base ranges ↔ s.analyze.ranges = ranges := by
  refine ⟨(m.markLines s.base s.lines).1.fillPadding, by rw [Symbol.analyze, hunified],
    fun ranges => ?_⟩
  rw [CoverageMap.missedRanges_iff (by rwa [CoverageMap.high_analyzed]), Symbol.analyze, hunified]

def jumping : Symbol where
  name := "f"
  base := 0x100
  unified :=
    some
      { low := 0
        flags := #[.start ||| .executed, .start, .start, .empty, .start ||| .executed,
          .start ||| .nop, .start]
        nonempty := by decide
        fits := by decide }

theorem Symbol.ranges_analyze_iff_jumping :
    ∃ filled, jumping.analyze.unified = some filled ∧
      filled.MissedRanges "f" 0x100
        [{ symbol := "f", start := 0x101, last := 0x103, instructions := 2, kind := .notExecuted },
          { symbol := "f", start := 0x106, last := 0x106, instructions := 1, kind := .notExecuted }]
        := by
  obtain ⟨filled, hfilled, hranges⟩ :=
    Symbol.ranges_analyze_iff (s := jumping) rfl (by decide)
  exact ⟨filled, hfilled, (hranges _).2 (by decide)⟩

end TraceCoverage

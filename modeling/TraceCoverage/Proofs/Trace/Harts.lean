import TraceCoverage.Proofs.Trace.Evidence
import TraceCoverage.Listing.Reader

/-!
# Traces of several harts

A commit log may hold the lines of several harts. A replay takes it as one trace: which bytes ran
does not depend on the harts, but a direction is read off two commits in a row, whichever harts they
are of. So interleaving the harts changes nothing but directions, and these only where another hart
gets between a branch and what follows it.
-/

open Classical

namespace TraceCoverage

/-! ## Logs -/

abbrev HartLog := List (Nat × String)

namespace HartLog

def file (log : HartLog) : List String := log.map (·.2)

def own (log : HartLog) (hart : Nat) : List String := (log.filter (·.1 == hart)).map (·.2)

def commits (log : HartLog) : List (Nat × TraceEntry) :=
  log.filterMap fun (hart, line) => (TraceFormat.spike.entry? line).map (hart, ·)

def apart (log : HartLog) (harts : List Nat) : List (List TraceEntry) :=
  harts.map fun hart => (log.commits.filter (·.1 == hart)).map (·.2)

def Follows (log : HartLog) (x y : TraceEntry) : Prop :=
  (x, y) ∈ (log.commits.map (·.2)).consecutivePairs

def FollowsInHart (log : HartLog) (x y : TraceEntry) : Prop :=
  ∃ hart, (x, y) ∈ ((log.commits.filter (·.1 == hart)).map (·.2)).consecutivePairs

variable {log : HartLog} {x y : TraceEntry}

theorem filterMap_file (log : HartLog) :
    log.file.filterMap TraceFormat.spike.entry? = log.commits.map (·.2) := by
  rw [file, commits, List.filterMap_map, List.map_filterMap]
  congr 1
  funext entry
  simp [Function.comp_def]

theorem filterMap_own (log : HartLog) (hart : Nat) :
    (log.own hart).filterMap TraceFormat.spike.entry? =
      (log.commits.filter (·.1 == hart)).map (·.2) := by
  induction log with
  | nil => rfl
  | cons entry rest ih =>
    obtain ⟨h, line⟩ := entry
    simp only [own, commits] at ih ⊢
    cases hline : TraceFormat.spike.entry? line <;> cases hh : h == hart <;>
      simp [hline, hh, ih]

/-! ## Commits in a row -/

theorem mem_consecutivePairs_iff {α : Type} {l : List α} {a b : α} :
    (a, b) ∈ l.consecutivePairs ↔ ∃ before after, l = before ++ a :: b :: after := by
  constructor
  · intro h
    induction l with
    | nil => simp [List.consecutivePairs] at h
    | cons c rest ih =>
      cases rest with
      | nil => simp [List.consecutivePairs] at h
      | cons d rest =>
        simp only [List.consecutivePairs, List.tail_cons, List.zip_cons_cons, List.mem_cons,
          Prod.mk.injEq] at h
        rcases h with ⟨rfl, rfl⟩ | h
        · exact ⟨[], rest, rfl⟩
        · obtain ⟨before, after, heq⟩ := ih h
          exact ⟨c :: before, after, congrArg (c :: ·) heq⟩
  · rintro ⟨before, after, rfl⟩
    induction before with
    | nil => simp [List.consecutivePairs]
    | cons c before ih =>
      cases before with
      | nil => simp [List.consecutivePairs]
      | cons d before => exact List.mem_cons_of_mem _ ih

theorem mem_consecutivePairs_filter {α : Type} {l : List α} {p : α → Bool} {a b : α}
    (h : (a, b) ∈ l.consecutivePairs) (ha : p a = true) (hb : p b = true) :
    (a, b) ∈ (l.filter p).consecutivePairs := by
  obtain ⟨before, after, rfl⟩ := mem_consecutivePairs_iff.1 h
  refine mem_consecutivePairs_iff.2 ⟨before.filter p, after.filter p, ?_⟩
  rw [List.filter_append, List.filter_cons_of_pos ha, List.filter_cons_of_pos hb]

theorem of_mem_consecutivePairs_filter {α : Type} {l : List α} {p : α → Bool} {a b : α}
    (h : (a, b) ∈ (l.filter p).consecutivePairs) :
    (a, b) ∈ l.consecutivePairs ∨ ∃ c, (a, c) ∈ l.consecutivePairs ∧ p c = false := by
  obtain ⟨before, after, heq⟩ := mem_consecutivePairs_iff.1 h
  obtain ⟨l₁, l₂, rfl, _, hfrom⟩ := List.filter_eq_append_iff.1 heq
  obtain ⟨skipped, rest, rfl, _, _, hrest⟩ := List.filter_eq_cons_iff.1 hfrom
  obtain ⟨between, rest, rfl, hbetween, _, _⟩ := List.filter_eq_cons_iff.1 hrest
  cases between with
  | nil => exact .inl (mem_consecutivePairs_iff.2 ⟨l₁ ++ skipped, rest, by simp⟩)
  | cons c between =>
    refine .inr ⟨c, mem_consecutivePairs_iff.2 ⟨l₁ ++ skipped, between ++ b :: rest, by simp⟩, ?_⟩
    simpa using hbetween c List.mem_cons_self

theorem mem_consecutivePairs_map {l : List (Nat × TraceEntry)} :
    (x, y) ∈ (l.map (·.2)).consecutivePairs ↔ ∃ c ∈ l.consecutivePairs, c.1.2 = x ∧ c.2.2 = y := by
  rw [List.consecutivePairs, ← List.map_tail, List.zip_map]
  simp only [List.mem_map, Prod.map, Prod.mk.injEq]

/-- If no commit of a kind is directly followed by one of another hart, the file and the harts agree
on what follows these. -/
theorem follows_iff_of_unbroken (P : TraceEntry → Prop)
    (hunbroken : ∀ c ∈ log.commits.consecutivePairs, P c.1.2 → c.1.1 = c.2.1) (hx : P x) :
    log.Follows x y ↔ log.FollowsInHart x y := by
  simp only [Follows, FollowsInHart, mem_consecutivePairs_map]
  constructor
  · rintro ⟨⟨c, d⟩, hpair, rfl, rfl⟩
    have hhart : d.1 = c.1 := (hunbroken _ hpair hx).symm
    exact ⟨c.1, _, mem_consecutivePairs_filter hpair (by simp) (by simpa using hhart), rfl, rfl⟩
  · rintro ⟨hart, ⟨c, d⟩, hpair, rfl, rfl⟩
    rcases of_mem_consecutivePairs_filter hpair with hnext | ⟨b, hnext, hb⟩
    · exact ⟨_, hnext, rfl, rfl⟩
    · have hc := (List.mem_filter.1 (List.of_mem_zip hpair).1).2
      have hhart := hunbroken _ hnext hx
      simp only [beq_iff_eq, beq_eq_false_iff_ne] at hc hb
      exact absurd (hhart.symm.trans hc) hb

section

variable {harts : List Nat} (hharts : ∀ entry ∈ log, entry.1 ∈ harts)
include hharts

theorem mem_harts_of_mem_commits {c : Nat × TraceEntry} (hc : c ∈ log.commits) : c.1 ∈ harts := by
  obtain ⟨⟨h, line⟩, hentry, hline⟩ := List.mem_filterMap.1 hc
  obtain ⟨_, _, rfl⟩ := Option.map_eq_some_iff.1 hline
  exact hharts _ hentry

theorem mem_flatten_apart (x : TraceEntry) :
    x ∈ (log.apart harts).flatten ↔ x ∈ log.commits.map (·.2) := by
  simp only [apart, List.mem_flatten, List.mem_map, exists_exists_and_eq_and, List.mem_filter,
    beq_iff_eq]
  constructor
  · rintro ⟨_, _, c, ⟨hc, _⟩, hx⟩
    exact ⟨c, hc, hx⟩
  · rintro ⟨c, hc, hx⟩
    exact ⟨c.1, mem_harts_of_mem_commits hharts hc, c, ⟨hc, rfl⟩, hx⟩

theorem mem_pairs_apart (x y : TraceEntry) :
    (x, y) ∈ (log.apart harts).flatMap List.consecutivePairs ↔ log.FollowsInHart x y := by
  simp only [apart, List.mem_flatMap, List.mem_map, exists_exists_and_eq_and, FollowsInHart]
  constructor
  · rintro ⟨hart, _, hpair⟩
    exact ⟨hart, hpair⟩
  · rintro ⟨hart, hpair⟩
    obtain ⟨⟨c, _⟩, hc, rfl, _⟩ := mem_consecutivePairs_map.1 hpair
    obtain ⟨hmem, hhart⟩ := List.mem_filter.1 (List.of_mem_zip hc).1
    exact ⟨hart, beq_iff_eq.1 hhart ▸ mem_harts_of_mem_commits hharts hmem, hpair⟩

end

end HartLog

/-! ## Directions apart -/

structure CoverageMap.EqButDirections (m o : CoverageMap) : Prop where
  low : m.low = o.low
  size : m.size = o.size
  rest k : (m.byte k).diff (Flags.taken ||| Flags.notTaken) =
    (o.byte k).diff (Flags.taken ||| Flags.notTaken)

namespace Executable

variable {e : Executable} {log : HartLog} {harts : List Nat} {name : String} {m : CoverageMap}
  {k : Nat}

/-- A map has the directions of another and those that commits in a row show. -/
structure Directed (e : Executable) (follows : TraceEntry → TraceEntry → Prop) (name : String)
    (m m' : CoverageMap) : Prop where
  taken k : k < m.size → ((m'.byte k).isTaken = true ↔
    (m.byte k).isTaken = true ∨ ∃ x y, follows x y ∧ e.Jumps (x, y) name k)
  notTaken k : k < m.size → ((m'.byte k).isNotTaken = true ↔
    (m.byte k).isNotTaken = true ∨ ∃ x y, follows x y ∧ e.FallsThrough (x, y) name k)

def branchesAt (e : Executable) (a : Address) : Bool :=
  (e.mapAt? a).any fun m => (m.flagsAt a).isBranch

theorem branchesAt_of_lookup? {a : Address} (hl : e.lookup? a = some (name, m))
    (hk : m.offset? a = some k) : e.branchesAt a = (m.byte k).isBranch := by
  rw [branchesAt, mapAt?, hl, Option.map_some, Option.any_some, CoverageMap.flagsAt_of_offset? hk]

theorem Jumps.branchesAt {p : TraceEntry × TraceEntry} (h : e.Jumps p name k) :
    e.branchesAt p.1.pc = true := by
  obtain ⟨m, hl, hk, hbranch, _⟩ := h
  exact (branchesAt_of_lookup? hl hk).trans hbranch

theorem FallsThrough.branchesAt {p : TraceEntry × TraceEntry} (h : e.FallsThrough p name k) :
    e.branchesAt p.1.pc = true := by
  obtain ⟨m, hl, hk, hbranch, _⟩ := h
  exact (branchesAt_of_lookup? hl hk).trans hbranch

theorem mark_eq_mark_iff {g g' : Marks} :
    e.mark g = e.mark g' ↔
      ∀ (name : String) (m : CoverageMap), e.maps[name]? = some m →
        m.mark (g name) = m.mark (g' name) := by
  constructor
  · intro h name m hm
    have hmarked : (e.mark g).maps[name]? = (e.mark g').maps[name]? := by rw [h]
    rw [getElem?_maps_mark, getElem?_maps_mark, hm] at hmarked
    exact Option.some.inj hmarked
  · intro h
    simp only [mark, mk.injEq, true_and, and_true]
    apply Std.ExtTreeMap.ext_getElem?
    intro name
    rw [Std.ExtTreeMap.getElem?_map, Std.ExtTreeMap.getElem?_map]
    cases hm : e.maps[name]? with
    | none => rfl
    | some m => exact congrArg some (h name m hm)

theorem rel_maps_mark {R : CoverageMap → CoverageMap → Prop} {g : Marks}
    (h : ∀ m : CoverageMap, R m (m.mark (g name))) :
    Option.Rel R e.maps[name]? (e.mark g).maps[name]? := by
  rw [getElem?_maps_mark]
  cases e.maps[name]? with
  | none => exact .none
  | some m => exact .some (h m)

/-! ## The evidence of a log -/

theorem replayAll_file (e : Executable) (log : HartLog) :
    Pipeline.replayAll .spike e [log.file] = e.mark (e.evidences [log.commits.map (·.2)]) := by
  rw [replayAll_eq_mark, List.map_singleton, HartLog.filterMap_file]

theorem replayAll_own (e : Executable) (log : HartLog) (harts : List Nat) :
    Pipeline.replayAll .spike e (harts.map log.own) = e.mark (e.evidences (log.apart harts)) := by
  simp only [replayAll_eq_mark, List.map_map, Function.comp_def, HartLog.filterMap_own,
    HartLog.apart]

theorem directed_mark {traces : List (List TraceEntry)} {follows : TraceEntry → TraceEntry → Prop}
    (hfollows : ∀ x y, (x, y) ∈ traces.flatMap List.consecutivePairs ↔ follows x y)
    (name : String) (m : CoverageMap) :
    e.Directed follows name m (m.mark (e.evidences traces name)) := by
  constructor
  case taken =>
    intro k hk
    rw [CoverageMap.byte_mark _ hk, Flags.isTaken_union, Bool.or_eq_true, isTaken_evidences,
      Prod.exists]
    simp only [hfollows]
  case notTaken =>
    intro k hk
    rw [CoverageMap.byte_mark _ hk, Flags.isNotTaken_union, Bool.or_eq_true, isNotTaken_evidences,
      Prod.exists]
    simp only [hfollows]

theorem evidences_diff_directions {traces traces' : List (List TraceEntry)}
    (h : ∀ x, x ∈ traces.flatten ↔ x ∈ traces'.flatten) (name : String) (k : Nat) :
    (e.evidences traces name k).diff (Flags.taken ||| Flags.notTaken) =
      (e.evidences traces' name k).diff (Flags.taken ||| Flags.notTaken) := by
  simp only [evidences, shown, Flags.evidence_diff_directions, h]

theorem eqButDirections_mark {g g' : Nat → Flags}
    (h : ∀ k, (g k).diff (Flags.taken ||| Flags.notTaken) =
      (g' k).diff (Flags.taken ||| Flags.notTaken)) :
    (m.mark g).EqButDirections (m.mark g') := by
  refine ⟨by simp, by simp, fun k => ?_⟩
  rcases Nat.lt_or_ge k m.size with hk | hk
  · rw [CoverageMap.byte_mark _ hk, CoverageMap.byte_mark _ hk, Flags.union_diff, Flags.union_diff,
      h]
  · rw [CoverageMap.byte_of_size_le (by simpa using hk),
      CoverageMap.byte_of_size_le (by simpa using hk)]

theorem eqButDirections_apart {log : HartLog} {harts : List Nat}
    (hharts : ∀ entry ∈ log, entry.1 ∈ harts) (name : String) (m : CoverageMap) :
    (m.mark (e.evidences [log.commits.map (·.2)] name)).EqButDirections
      (m.mark (e.evidences (log.apart harts) name)) := by
  refine eqButDirections_mark fun k => evidences_diff_directions (fun x => ?_) name k
  rw [List.flatten_singleton, HartLog.mem_flatten_apart hharts]

/-- Two ways to take commits in a row show the same directions, apart from those that the map has
already. -/
def SameDirections (e : Executable) (follows follows' : TraceEntry → TraceEntry → Prop)
    (name : String) (m : CoverageMap) : Prop :=
  ∀ k < m.size,
    ((m.byte k).isTaken = false →
      ((∃ x y, follows x y ∧ e.Jumps (x, y) name k) ↔
        ∃ x y, follows' x y ∧ e.Jumps (x, y) name k)) ∧
    ((m.byte k).isNotTaken = false →
      ((∃ x y, follows x y ∧ e.FallsThrough (x, y) name k) ↔
        ∃ x y, follows' x y ∧ e.FallsThrough (x, y) name k))

theorem sameDirections_of_unbroken {log : HartLog}
    (h : ∀ c ∈ log.commits.consecutivePairs, e.branchesAt c.1.2.pc → c.1.1 = c.2.1)
    (name : String) (m : CoverageMap) :
    e.SameDirections log.Follows log.FollowsInHart name m := by
  -- Only a pair whose first commit is a branch shows a direction, and such a pair is unbroken.
  have hfollows {x y} := HartLog.follows_iff_of_unbroken (y := y)
    (fun x => e.branchesAt x.pc = true) h (x := x)
  intro k _
  refine ⟨fun _ => exists₂_congr fun x y => and_congr_left fun hjumps => ?_,
    fun _ => exists₂_congr fun x y => and_congr_left fun hfalls => ?_⟩
  · exact hfollows hjumps.branchesAt
  · exact hfollows hfalls.branchesAt

theorem Directed.eq_iff {follows follows' : TraceEntry → TraceEntry → Prop} {m' m'' : CoverageMap}
    (h : e.Directed follows name m m') (h' : e.Directed follows' name m m'')
    (hsize : m'.size = m.size) (heq : m'.EqButDirections m'') :
    m' = m'' ↔ e.SameDirections follows follows' name m := by
  constructor
  · rintro rfl k hk
    have htaken := (h.taken k hk).symm.trans (h'.taken k hk)
    have hnotTaken := (h.notTaken k hk).symm.trans (h'.notTaken k hk)
    exact ⟨fun hnew => by simpa [hnew] using htaken, fun hnew => by simpa [hnew] using hnotTaken⟩
  · intro hsame
    refine CoverageMap.ext_byte heq.low heq.size fun k hk => ?_
    have hk : k < m.size := hsize ▸ hk
    apply Flags.ext_directions (heq.rest k)
    · rw [Bool.eq_iff_iff, h.taken k hk, h'.taken k hk]
      cases hold : (m.byte k).isTaken with
      | true => simp
      | false => simpa using (hsame k hk).1 hold
    · rw [Bool.eq_iff_iff, h.notTaken k hk, h'.notTaken k hk]
      cases hold : (m.byte k).isNotTaken with
      | true => simp
      | false => simpa using (hsame k hk).2 hold

end Executable

namespace Pipeline

variable (e : Executable) (log : HartLog) {harts : List Nat}

/-- The log of several harts, replayed as one trace or hart by hart, gives maps that are equal but
for directions. Directions are read off commits in a row: of the file in the one case, of each hart
in the other. So the maps are equal exactly if both ways of reading show the same directions, and in
particular if the commit that follows a branch in the file is of the same hart. -/
theorem replayAll_interleaved (hharts : ∀ entry ∈ log, entry.1 ∈ harts) :
    let whole := replayAll .spike e [log.file]
    let apart := replayAll .spike e (harts.map log.own)
    (∀ name : String,
        Option.Rel CoverageMap.EqButDirections whole.maps[name]? apart.maps[name]?) ∧
      (∀ name : String, Option.Rel (e.Directed log.Follows name) e.maps[name]? whole.maps[name]?) ∧
      (∀ name : String,
        Option.Rel (e.Directed log.FollowsInHart name) e.maps[name]? apart.maps[name]?) ∧
      (whole = apart ↔ ∀ (name : String) m, e.maps[name]? = some m →
        e.SameDirections log.Follows log.FollowsInHart name m) ∧
      ((∀ c ∈ log.commits.consecutivePairs, e.branchesAt c.1.2.pc → c.1.1 = c.2.1) →
        whole = apart) := by
  intro whole apart
  have hwhole : whole = _ := Executable.replayAll_file e log
  have hapart : apart = _ := Executable.replayAll_own e log harts
  have hpairs : ∀ x y, (x, y) ∈ [log.commits.map (·.2)].flatMap List.consecutivePairs ↔
      log.Follows x y := by
    simp [HartLog.Follows]
  have hfile := Executable.directed_mark (e := e) hpairs
  have hown := Executable.directed_mark (e := e) (HartLog.mem_pairs_apart hharts)
  have hrest := Executable.eqButDirections_apart (e := e) hharts
  have hiff : whole = apart ↔ ∀ (name : String) m, e.maps[name]? = some m →
      e.SameDirections log.Follows log.FollowsInHart name m := by
    rw [hwhole, hapart, Executable.mark_eq_mark_iff]
    exact forall₃_congr fun name m _ =>
      (hfile name m).eq_iff (hown name m) (CoverageMap.size_mark _) (hrest name m)
  refine ⟨fun name => ?_, fun name => ?_, fun name => ?_, hiff, fun hunbroken => hiff.2 ?_⟩
  · rw [hwhole, hapart, Executable.getElem?_maps_mark, Executable.getElem?_maps_mark]
    cases e.maps[name]? with
    | none => exact .none
    | some m => exact .some (hrest name m)
  · exact hwhole ▸ Executable.rel_maps_mark (hfile name)
  · exact hapart ▸ Executable.rel_maps_mark (hown name)
  · exact fun name m _ => Executable.sameDirections_of_unbroken hunbroken name m

def branching : Executable :=
  let listing :=
    ["100 <f>:", "100:\tbeqz a0,108 <f+8>", "104:\taddi a0,a0,-1", "108:\tret", "10c <g>:"]
  (Listing.read (.ofArchitecture "riscv32-elf" .riscV) (· == "f") { id := 0, file := "a.exe" }
    { lines := listing }).state

def takingTurns : HartLog :=
  [(0, "core   0: 3 0x00000100 (0x00050463)"), (0, "core   0: 3 0x00000104 (0xfff50513)"),
    (1, "core   1: 3 0x00000100 (0x00050463)"), (1, "core   1: 3 0x00000108 (0x00008067)"),
    (0, "core   0: 3 0x00000108 (0x00008067)")]

theorem replayAll_takingTurns :
    (∀ entry ∈ takingTurns, entry.1 ∈ [0, 1]) ∧
      replayAll .spike branching [takingTurns.file] =
        replayAll .spike branching ([0, 1].map takingTurns.own) := by
  have hharts : ∀ entry ∈ takingTurns, entry.1 ∈ [0, 1] := by decide
  obtain ⟨_, _, _, _, hsame⟩ := replayAll_interleaved branching takingTurns hharts
  exact ⟨hharts, hsame (by decide +kernel)⟩

def betweenHarts : HartLog :=
  [(0, "core   0: 3 0x00000100 (0x00050463)"), (1, "core   1: 3 0x00000104 (0xfff50513)")]

/-- The file shows that the branch fell through, and neither hart does. -/
theorem direction_between_harts :
    let whole := replayAll .spike branching [betweenHarts.file]
    let apart := replayAll .spike branching ([0, 1].map betweenHarts.own)
    let fellThrough (e : Executable) := e.maps["f"]?.any fun m => (m.flagsAt 0x100).isNotTaken
    (∀ entry ∈ betweenHarts, entry.1 ∈ [0, 1]) ∧
      fellThrough whole = true ∧ fellThrough apart = false ∧ whole.maps ≠ apart.maps := by
  intro whole apart fellThrough
  have hwhole : fellThrough whole = true := by decide +kernel
  have hapart : fellThrough apart = false := by decide +kernel
  refine ⟨by decide, hwhole, hapart, fun h => ?_⟩
  have hsame : fellThrough whole = fellThrough apart := by
    simp only [fellThrough, h]
  rw [hwhole, hapart] at hsame
  cases hsame

end Pipeline

end TraceCoverage

import TraceCoverage.Proofs.Executable.Relocation
import TraceCoverage.Proofs.Trace.Exact

/-!
# A trace at another load address

What a trace shows of an executable, a trace whose program counters are all moved shows of the
moved executable. So both replays set the same flags and count the same.
-/

open Classical

namespace TraceCoverage

/-! ## Traces -/

def TraceEntry.shift (b : Address) (x : TraceEntry) : TraceEntry where
  pc := b + x.pc
  next := x.next.map (b + ·)

def Commit.shift (b : Address) (c : Commit) : Commit := { c with pc := b + c.pc }

namespace TraceFormat

/-- The lines show the same program counters, higher by `b`. The addresses behind the instructions
of a commit log do not wrap. -/
def Moved (format : TraceFormat) (b : Address) (lines lines' : List String) : Prop :=
  match format with
  | spike =>
    let commits := lines.filterMap (Commit.ofLine? ·.toList)
    lines'.filterMap (Commit.ofLine? ·.toList) = commits.map (Commit.shift b) ∧
      ∀ c ∈ commits, b.toNat + (c.pc.toNat + c.size.toNat) < 0x100000000
  | pcs =>
    lines'.filterMap (pcOfLine? ·.toList) =
      (lines.filterMap (pcOfLine? ·.toList)).map (b + ·)

variable {format : TraceFormat} {b : Address} {lines lines' : List String}

theorem filterMap_entry?_of_moved (h : format.Moved b lines lines') :
    lines'.filterMap format.entry? = (lines.filterMap format.entry?).map (TraceEntry.shift b) := by
  cases format with
  | spike =>
    obtain ⟨hcommits, hfits⟩ := h
    have hentries (lines : List String) : lines.filterMap spike.entry? =
        (lines.filterMap (Commit.ofLine? ·.toList)).map fun c =>
          { pc := c.pc, next := c.next? } := by
      rw [List.map_filterMap]
      rfl
    rw [hentries, hentries, hcommits, List.map_map, List.map_map]
    apply List.map_congr_left
    intro c hc
    have hpc := hfits c hc
    have hmoved : Address.Fits b c.pc := Nat.lt_of_le_of_lt
      (Nat.add_le_add_left (Nat.le_add_right _ _) _) hpc
    have hsize : (c.shift b).size = c.size := rfl
    have hnext : c.next? = some (c.pc + c.size) := if_pos (by omega)
    have hnext' : (c.shift b).next? = some (b + c.pc + c.size) := by
      rw [Commit.next?, hsize, Commit.shift, hmoved.toNat_add]
      exact if_pos (by omega)
    simp only [Function.comp_apply, TraceEntry.shift, hnext, hnext', Option.map_some,
      UInt32.add_assoc]
    rfl
  | pcs =>
    have hentries (lines : List String) : lines.filterMap pcs.entry? =
        (lines.filterMap (pcOfLine? ·.toList)).map fun pc => { pc } := by
      rw [List.map_filterMap]
      rfl
    rw [hentries, hentries, h, List.map_map, List.map_map]
    rfl

end TraceFormat

/-! ## Evidence -/

namespace CoverageMap.Moved

variable {b : Address} {m m' : CoverageMap} (h : m.Moved b m')
include h

theorem fallThrough? {x : TraceEntry} (hx : m.contains x.pc = true) :
    m'.fallThrough? (x.shift b) = (m.fallThrough? x).map (b + ·) := by
  rw [CoverageMap.fallThrough?, CoverageMap.fallThrough?, TraceEntry.shift, h.nextStart? hx,
    Option.map_or]

theorem fallThrough?_eq_iff {x y : TraceEntry} (hx : m.contains x.pc = true) :
    m'.fallThrough? (x.shift b) = some (y.shift b).pc ↔ m.fallThrough? x = some y.pc := by
  rw [h.fallThrough? hx]
  cases m.fallThrough? x <;> simp [TraceEntry.shift]

end CoverageMap.Moved

namespace Executable.Moved

variable {b : Address} {e e' : Executable} {name : String} {k : Nat} (h : e.Moved b e')
include h

theorem covers_iff (pc : Address) : e'.Covers (b + pc) name k ↔ e.Covers pc name k := by
  rw [Executable.covers_iff, Executable.covers_iff]
  apply h.exists_lookup?_iff
  intro m m' hm _
  simp only [hm.offset?, hm.spans]

theorem fallsThrough_iff (x y : TraceEntry) :
    e'.FallsThrough (x.shift b, y.shift b) name k ↔ e.FallsThrough (x, y) name k := by
  apply h.exists_lookup?_iff
  intro m m' hm hx
  have hoffset : m'.offset? (x.shift b).pc = m.offset? x.pc := hm.offset? x.pc
  simp only [hoffset, hm.byte, hm.fallThrough?_eq_iff hx]

theorem jumps_iff (x y : TraceEntry) :
    e'.Jumps (x.shift b, y.shift b) name k ↔ e.Jumps (x, y) name k := by
  apply h.exists_lookup?_iff
  intro m m' hm hx
  have hoffset : m'.offset? (x.shift b).pc = m.offset? x.pc := hm.offset? x.pc
  have htarget : e'.target? (x.shift b).pc = some (y.shift b).pc ↔
      e.target? x.pc = some y.pc := by
    rw [TraceEntry.shift, h.target?]
    cases e.target? x.pc <;> simp [TraceEntry.shift]
  simp only [hoffset, hm.byte, Ne, hm.fallThrough?_eq_iff hx, htarget]

theorem evidence (trace : List TraceEntry) :
    e'.evidence (trace.map (TraceEntry.shift b)) = e.evidence trace := by
  funext name k
  have hpairs : (trace.map (TraceEntry.shift b)).consecutivePairs =
      trace.consecutivePairs.map fun p => (p.1.shift b, p.2.shift b) := by
    rw [List.consecutivePairs, ← List.map_tail, List.zip_map]
    rfl
  have hcovers (x : TraceEntry) : e'.Covers (x.shift b).pc name k ↔ e.Covers x.pc name k :=
    h.covers_iff x.pc
  simp only [Executable.evidence, shown, hpairs, List.mem_map, exists_exists_and_eq_and, hcovers,
    h.fallsThrough_iff, h.jumps_iff]

end Executable.Moved

/-! ## Replays -/

theorem Replay.summary_run (e : Executable) (trace : List TraceEntry) :
    (run e trace).summary = ⟨trace.length, trace.countP fun x => (e.mapAt? x.pc).isSome⟩ := by
  have h := summary_foldl_step (e := e) trace Executable.Marks.none none {}
  rw [Executable.mark_none, TraceSummary.add_eq, Nat.zero_add, Nat.zero_add] at h
  exact h

namespace Executable.Moved

variable {b : Address} {e e' : Executable} {format : TraceFormat} (h : e.Moved b e')
include h

theorem replay {lines lines' : List String} (hlines : format.Moved b lines lines') :
    (e.replay format { lines }).state.Moved b (e'.replay format { lines := lines' }).state ∧
      (e'.replay format { lines := lines' }).result = (e.replay format { lines }).result := by
  have hentries := TraceFormat.filterMap_entry?_of_moved hlines
  have hmapped (x : TraceEntry) :
      (e'.mapAt? (x.shift b).pc).isSome = (e.mapAt? x.pc).isSome := by
    have hmap : Option.Rel _ (e.mapAt? x.pc) (e'.mapAt? (x.shift b).pc) := h.mapAt? x.pc
    generalize e.mapAt? x.pc = m?, e'.mapAt? (x.shift b).pc = m'? at hmap
    cases hmap <;> rfl
  constructor
  · rw [Executable.replay, Executable.replay, run_eq_mark, run_eq_mark, hentries, h.evidence]
    exact h.mark _
  · simp only [Executable.replay, Replay.summary_run, hentries, List.length_map, List.countP_map,
      Function.comp_def, hmapped]

theorem replayAll {traces traces' : List (List String)}
    (htraces : List.Forall₂ (format.Moved b) traces traces') :
    (Pipeline.replayAll format e traces).Moved b (Pipeline.replayAll format e' traces') := by
  induction htraces generalizing e e' with
  | nil => exact h
  | cons hlines _ ih => exact ih (h.replay hlines).1

end Executable.Moved

end TraceCoverage

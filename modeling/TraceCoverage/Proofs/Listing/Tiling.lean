import TraceCoverage.Proofs.Listing.Closing
import TraceCoverage.Proofs.Listing.Ending

/-!
# Where a symbol is cut off

Padding that fills the space up to the next symbol without gaps ends at the address that closes its
own symbol. What trimming subtracts is then the distance back to the first nop, and the symbol ends
there: its map has all code that is kept, and nothing else.
-/

namespace TraceCoverage

/-! ## The padding at the end -/

namespace Padding

variable {lines : List CodeLine} {stop : Address}

def first (lines : List CodeLine) (stop : Address) : Address :=
  ((removed lines).head?.bind (·.address)).getD stop

/-- Each nop starts where the one before it ends. -/
def Tiles : Nat → List CodeLine → Nat → Prop
  | start, [], stop => start = stop
  | start, l :: rest, stop =>
    l.address.map UInt32.toNat = some start ∧ Tiles (start + l.nopSize) rest stop

instance decidableTiles (start : Nat) (lines : List CodeLine) (stop : Nat) :
    Decidable (Tiles start lines stop) :=
  match lines with
  | [] => inferInstanceAs (Decidable (start = stop))
  | l :: rest =>
    have := decidableTiles (start + l.nopSize) rest stop
    inferInstanceAs (Decidable (_ ∧ _))

theorem Tiles.add_sum {start stop : Nat} (h : Tiles start lines stop) :
    start + (lines.map (·.nopSize)).foldr (· + ·) 0 = stop := by
  induction lines generalizing start with
  | nil => exact h
  | cons l rest ih =>
    have hrest := ih h.2
    rw [List.map_cons, List.foldr_cons]
    omega

theorem bytes_eq (h : Tiles (first lines stop).toNat (removed lines) stop.toNat) :
    bytes lines = stop - first lines stop ∧ first lines stop ≤ stop := by
  have hadd := h.add_sum
  have hlt := stop.toNat_lt
  have hle : first lines stop ≤ stop := UInt32.le_iff_toNat_le.2 (by omega)
  refine ⟨?_, hle⟩
  rw [← UInt32.toNat_inj, toNat_bytes, UInt32.toNat_sub_of_le _ _ hle]
  omega

end Padding

namespace Listing

/-! ## Bodies whose padding fits -/

/-- The body of a symbol that is closed at an address: its code ascends in between, and the padding
that ends it leaves no gap. -/
structure Tiled (body : List CodeLine) (start stop : Address) : Prop where
  pos : 0 < stop
  start_le : start ≤ stop
  ascending : (body.filterMap (·.address)).Pairwise (· < ·)
  within : ∀ a ∈ body.filterMap (·.address), start ≤ a ∧ a < stop
  tiles : Padding.Tiles (Padding.first body stop).toNat (Padding.removed body) stop.toNat

-- The addresses are checked along the list, since an instance that goes through all addresses would
-- never end.
instance (body : List CodeLine) (start stop : Address) : Decidable (Tiled body start stop) :=
  decidable_of_iff
    (0 < stop ∧ start ≤ stop ∧ (body.filterMap (·.address)).Pairwise (· < ·) ∧
      ((body.filterMap (·.address)).all fun a => start ≤ a && a < stop) = true ∧
        Padding.Tiles (Padding.first body stop).toNat (Padding.removed body) stop.toNat)
    (by
      simp only [List.all_eq_true, Bool.and_eq_true, decide_eq_true_eq]
      exact ⟨fun ⟨hpos, hle, hascending, hwithin, htiles⟩ =>
        ⟨hpos, hle, hascending, hwithin, htiles⟩,
        fun h => ⟨h.pos, h.start_le, h.ascending, h.within, h.tiles⟩⟩)

namespace Tiled

variable {body : List CodeLine} {start stop : Address} (h : Tiled body start stop)
include h

theorem kept : start ≤ Padding.first body stop ∧
    ∀ a ∈ (Padding.trim body).1.filterMap (·.address), start ≤ a ∧ a < Padding.first body stop := by
  have hnone : (Padding.trailing body).filterMap (·.address) = [] := by
    refine List.filterMap_eq_nil_iff.2 fun l hl => ?_
    simpa [CodeLine.isInstruction] using Padding.not_isInstruction_of_mem_trailing hl
  have haddresses : body.filterMap (·.address) =
      (Padding.leading body).filterMap (·.address) ++
        (Padding.removed body).filterMap (·.address) := by
    conv_lhs => rw [← Padding.append_parts body]
    rw [List.filterMap_append, List.filterMap_append, hnone, List.append_nil]
  have hascending := h.ascending
  have hwithin := h.within
  rw [haddresses] at hascending hwithin
  rw [Padding.trim_eq, List.filterMap_append, hnone, List.append_nil]
  have htiles := h.tiles
  unfold Padding.first at htiles ⊢
  cases hremoved : Padding.removed body with
  | nil =>
    refine ⟨h.start_le, fun a ha => ?_⟩
    exact hwithin a (List.mem_append_left _ ha)
  | cons l rest =>
    rw [hremoved] at htiles hascending hwithin
    obtain ⟨first, hfirst, _⟩ := Option.map_eq_some_iff.1 htiles.1
    rw [List.filterMap_cons_some hfirst] at hascending hwithin
    rw [List.head?_cons, Option.bind_some, hfirst, Option.getD_some]
    refine ⟨(hwithin first (by simp)).1, fun a ha => ⟨(hwithin a (by simp [ha])).1, ?_⟩⟩
    exact (List.pairwise_append.1 hascending).2.2 a ha first List.mem_cons_self

end Tiled

theorem Segment.symbol?_of_tiled {g : Segment} {stop : Address} (h : Tiled g.body g.start stop)
    (hlast : g.last = stop - 1) :
    (Padding.first g.body stop = g.start → g.symbol? = none) ∧
      (Padding.first g.body stop ≠ g.start →
        ∃ s, g.symbol? = some s ∧ s.last.toNat + 1 = (Padding.first g.body stop).toNat) := by
  obtain ⟨hbytes, hle⟩ := Padding.bytes_eq h.tiles
  have hstart := h.kept.1
  have hpos := UInt32.lt_iff_toNat_lt.1 h.pos
  have hend : (stop - 1).toNat = stop.toNat - 1 := Address.toNat_sub_one_of_lt h.pos
  have hpadding : (Padding.bytes g.body).toNat =
      stop.toNat - (Padding.first g.body stop).toNat := by
    rw [hbytes, UInt32.toNat_sub_of_le _ _ hle]
  rw [UInt32.le_iff_toNat_le] at hle hstart
  constructor
  · intro hfirst
    rw [Segment.symbol?, if_pos]
    rw [hfirst] at hpadding hle
    -- The padding reaches back to the header, or past address 0 if the header stands there.
    by_cases hzero : g.last < Padding.bytes g.body
    · exact .inl hzero
    · right
      rw [UInt32.lt_iff_toNat_lt, UInt32.toNat_sub_of_le _ _ (UInt32.not_lt.1 hzero), hlast, hend,
        hpadding]
      rw [UInt32.not_lt, UInt32.le_iff_toNat_le, hlast, hend, hpadding] at hzero
      omega
  · intro hfirst
    have hne : (Padding.first g.body stop).toNat ≠ g.start.toNat := fun heq =>
      hfirst (UInt32.toNat_inj.1 heq)
    obtain ⟨s, hs, hcut⟩ := Segment.exists_symbol? (g := g) (by
      rw [hlast, hend, hpadding]
      omega)
    rw [hlast, hend, hpadding] at hcut
    exact ⟨s, hs, by omega⟩

/-- The symbol has what trimming leaves of a body, and its map ends where the padding starts. It has
all code that is kept, with the flags of the lines, and no other flag. -/
structure CutOff (s : ResolvedSymbol) (m : CoverageMap) (body : List CodeLine)
    (start stop : Address) : Prop where
  base : s.base = start
  lines : s.lines = (Padding.trim body).1
  low : m.low = start
  high : m.high.toNat + 1 = (Padding.first body stop).toNat
  inside : ∀ a ∈ s.lines.filterMap (·.address), m.contains a = true
  isStart : ∀ a, (m.flagsAt a).isStart = true ↔ a ∈ s.lines.filterMap (·.address)
  isBranch : ∀ a, (m.flagsAt a).isBranch = true ↔
    ∃ l ∈ s.lines, l.address = some a ∧ l.isBranch = true
  isNop : ∀ a, (m.flagsAt a).isNop = true ↔ ∃ l ∈ s.lines, l.address = some a ∧ l.isNop = true
  others : ∀ a, (m.flagsAt a).diff (Flags.start ||| Flags.branch ||| Flags.nop) = Flags.empty

theorem Segment.cutOff {g : Segment} {s : ResolvedSymbol} {m : CoverageMap} {stop : Address}
    (h : Tiled g.body g.start stop) (hs : g.symbol? = some s)
    (hlast : s.last.toNat + 1 = (Padding.first g.body stop).toNat) (hdraws : s.Draws m) :
    CutOff s m g.body g.start stop := by
  have hbase := (Segment.of_symbol? hs).2.1
  have hlines := Segment.lines_of_symbol? hs
  have hinside : ∀ a ∈ s.lines.filterMap (·.address), m.contains a = true := by
    intro a ha
    rw [hlines] at ha
    obtain ⟨hfirst, hbefore⟩ := h.kept.2 a ha
    rw [UInt32.lt_iff_toNat_lt] at hbefore
    refine hdraws.contains_iff.2 ⟨hbase ▸ hfirst, UInt32.le_iff_toNat_le.2 ?_⟩
    omega
  -- Outside the map there is neither a flag nor a line that is kept.
  have hflags : ∀ a, m.flagsAt a = CodeLine.flagsAt s.lines a := by
    intro a
    by_cases ha : m.contains a = true
    · exact hdraws.flagsAt ha
    · rw [CoverageMap.flagsAt_of_not_contains ha, CodeLine.flagsAt_eq_empty]
      exact fun l hl haddress => ha (hinside a (List.mem_filterMap.2 ⟨l, hl, haddress⟩))
  refine ⟨hbase, hlines, hdraws.low.trans hbase, by rw [hdraws.high, hlast], hinside,
    fun a => ?_, fun a => ?_, fun a => ?_, fun a => ?_⟩
  · rw [hflags, CodeLine.isStart_flagsAt, List.mem_filterMap]
  · rw [hflags, CodeLine.isBranch_flagsAt]
  · rw [hflags, CodeLine.isNop_flagsAt]
  · have hothers : (CodeLine.flagsAt s.lines a).meets ⟨0xF8⟩ = false :=
      CodeLine.meets_flagsAt s.lines a (by decide) (by decide) (by decide)
    have hrest : ~~~(Flags.start ||| Flags.branch ||| Flags.nop).bits = 0xF8 := rfl
    rw [hflags, Flags.diff, hrest, Flags.empty, Flags.mk.injEq]
    simpa [Flags.meets] using hothers

/-! ## Reading such a body -/

namespace Reader

variable {t : Target} {wanted : String → Bool} {r : Reader} {o : OpenSymbol} {line : String}
  {stop : Address}

theorem step_plain (hheader : headerAt? t r.executable.loadAddress line = none)
    (hsentinel : sentinelAt? t r.executable.loadAddress line = none) :
    r.step t wanted line = .ok (r.push (bodyLine t r.executable.loadAddress line)) := by
  unfold headerAt? at hheader
  unfold sentinelAt? at hsentinel
  unfold step bodyLine
  cases hk : LineKind.ofLine t line.toList with
  | header offset label =>
    rw [hk] at hheader
    cases hheader
  | sentinel offset =>
    rw [hk] at hsentinel
    cases hsentinel
  | instruction | text => rfl

theorem run_plain (wanted : String → Bool) {body : List String}
    (hplain : Plain t r.executable.loadAddress body) (ho : r.current = some o) :
    ∃ r' o', r.run t wanted body = .ok r' ∧ r'.executable = r.executable ∧
      r'.resolved = r.resolved ∧ r'.current = some o' ∧ o'.name = o.name ∧ o'.start = o.start ∧
      o'.lines.reverse = o.lines.reverse ++ body.map (bodyLine t r.executable.loadAddress) := by
  induction body generalizing r o with
  | nil => exact ⟨r, o, rfl, rfl, rfl, ho, rfl, rfl, by simp⟩
  | cons line rest ih =>
    obtain ⟨⟨hheader, hsentinel⟩, hrest⟩ := List.forall_mem_cons.1 hplain
    have hpushed : (r.push (bodyLine t r.executable.loadAddress line)).current =
        some
          { o with
            lines := bodyLine t r.executable.loadAddress line :: o.lines
            last := (bodyLine t r.executable.loadAddress line).address <|> o.last } := by
      rw [push, ho]
      rfl
    obtain ⟨r', o', hrun, hexecutable, hresolved, hcurrent, hname, hstart, hlines⟩ :=
      ih (r := r.push (bodyLine t r.executable.loadAddress line)) hrest hpushed
    refine ⟨r', o', ?_, hexecutable, hresolved, hcurrent, hname, hstart, ?_⟩
    · rw [run, List.foldlM_cons, step_plain hheader hsentinel]
      exact hrun
    · rw [hlines]
      simp [push]

theorem step_closing (wanted : String → Bool) (ho : r.current = some o)
    (hcloser : headerAt? t r.executable.loadAddress line = some stop ∨
      sentinelAt? t r.executable.loadAddress line = some stop) :
    ∃ closed r', r.close o (stop - 1) = .ok closed ∧ r.step t wanted line = .ok r' ∧
      r'.executable = closed.executable ∧ r'.resolved = closed.resolved := by
  obtain ⟨closed, hclosed, _⟩ := exists_close r o (stop - 1)
  suffices ∃ r', r.step t wanted line = .ok r' ∧ r'.executable = closed.executable ∧
      r'.resolved = closed.resolved by
    obtain ⟨r', hstep, hsame⟩ := this
    exact ⟨closed, r', hclosed, hstep, hsame⟩
  unfold headerAt? sentinelAt? at hcloser
  unfold step closeCurrent
  cases hk : LineKind.ofLine t line.toList with
  | header offset label =>
    obtain rfl : r.executable.loadAddress + offset = stop := by simpa [hk] using hcloser
    simp only [ho, hclosed]
    split
    next => exact ⟨_, rfl, rfl, rfl⟩
    next => exact ⟨closed, rfl, rfl, rfl⟩
  | sentinel offset =>
    obtain rfl : r.executable.loadAddress + offset = stop := by simpa [hk] using hcloser
    simp only [ho, hclosed]
    exact ⟨closed, rfl, rfl, rfl⟩
  | instruction | text => simp [hk] at hcloser

theorem step_resolves (wanted : String → Bool) (ho : r.current = some o)
    (hcloser : headerAt? t r.executable.loadAddress line = some stop ∨
      sentinelAt? t r.executable.loadAddress line = some stop)
    {s : ResolvedSymbol} (hs : (o.closedAt (stop - 1)).symbol? = some s)
    (hnew : r.executable.maps.contains o.name = false) :
    ∃ r' m, r.step t wanted line = .ok r' ∧ r'.resolved = r.resolved.push s ∧ s.Draws m ∧
      r'.executable.maps[o.name]? = some m := by
  obtain ⟨closed, r', hclosed, hstep, hexecutable, hresolved⟩ := step_closing wanted ho hcloser
  obtain ⟨closed', m, hclosed', _, hpushed, _, hdraws, hmaps⟩ := close_resolves hs hnew
  obtain rfl : closed = closed' := Except.ok.inj (hclosed.symm.trans hclosed')
  refine ⟨r', m, hstep, hresolved.trans hpushed, hdraws, ?_⟩
  rw [hexecutable, hmaps, if_pos rfl]

theorem step_cutOff (wanted : String → Bool) (ho : r.current = some o)
    (hcloser : headerAt? t r.executable.loadAddress line = some stop ∨
      sentinelAt? t r.executable.loadAddress line = some stop)
    (htiled : Tiled o.lines.reverse o.start stop) :
    ∃ r', r.step t wanted line = .ok r' ∧ (r.executable.maps.contains o.name = false →
      (Padding.first o.lines.reverse stop = o.start →
        r'.executable = r.executable ∧ r'.resolved = r.resolved) ∧
      (Padding.first o.lines.reverse stop ≠ o.start →
        ∃ s m, r'.resolved = r.resolved.push s ∧ s.name = o.name ∧
          CutOff s m o.lines.reverse o.start stop ∧ r'.executable.maps[o.name]? = some m)) := by
  obtain ⟨closed, r', hclosed, hstep, hexecutable, hresolved⟩ := step_closing wanted ho hcloser
  have hbody : Tiled (o.closedAt (stop - 1)).body (o.closedAt (stop - 1)).start stop := htiled
  obtain ⟨hnone, hsome⟩ := Segment.symbol?_of_tiled hbody rfl
  refine ⟨r', hstep, fun hnew => ⟨fun hfirst => ?_, fun hfirst => ?_⟩⟩
  · obtain ⟨closed', hclosed', _, hkept, hkept'⟩ := close_skips (r := r) (.inl (hnone hfirst))
    obtain rfl : closed = closed' := Except.ok.inj (hclosed.symm.trans hclosed')
    exact ⟨hexecutable.trans hkept, hresolved.trans hkept'⟩
  · obtain ⟨s, hs, hlast⟩ := hsome hfirst
    obtain ⟨resolving, m, hstep', hpushed, hdraws, hm⟩ := step_resolves wanted ho hcloser hs hnew
    obtain rfl : r' = resolving := Except.ok.inj (hstep.symm.trans hstep')
    exact ⟨s, m, hpushed, (Segment.of_symbol? hs).1, Segment.cutOff hbody hs hlast hdraws, hm⟩

end Reader

section

variable {t : Target} {e : Executable} {header closer label : String} {offset : UInt32}
  {stop : Address}

theorem exists_open {wanted : String → Bool} (before : List String) {body : List String}
    (hheader : LineKind.ofLine t header.toList = .header offset label)
    (hwanted : wanted label = true) (hplain : Plain t e.loadAddress body) :
    ∃ r o, Reader.run t wanted { executable := e } (before ++ header :: body) = .ok r ∧
      r.current = some o ∧ r.executable.loadAddress = e.loadAddress ∧
      o.name = label ∧ o.start = e.loadAddress + offset ∧
      o.lines.reverse = { text := header } :: body.map (bodyLine t e.loadAddress) := by
  obtain ⟨r₀, hbefore, hkeeps₀⟩ := Reader.exists_run t wanted { executable := e } before
  obtain ⟨r₁, hstep, hkeeps₁⟩ := Reader.exists_step t wanted r₀ header
  obtain ⟨opened, hopened, hcurrent⟩ : ∃ opened, r₀.step t wanted header = .ok opened ∧ _ :=
    Reader.step_header hheader
  obtain rfl : r₁ = opened := Except.ok.inj (hstep.symm.trans hopened)
  have hload : r₁.executable.loadAddress = e.loadAddress :=
    hkeeps₁.loadAddress.trans hkeeps₀.loadAddress
  rw [if_pos hwanted] at hcurrent
  obtain ⟨r, o, hbody, hexecutable, _, ho, hname, hstart, hlines⟩ :=
    Reader.run_plain wanted (hload ▸ hplain) hcurrent
  refine ⟨r, o, ?_, ho, by rw [hexecutable, hload], hname, ?_, ?_⟩
  · rw [Reader.run_append hbefore, Reader.run, List.foldlM_cons, hstep]
    exact hbody
  · rw [hstart, hkeeps₀.loadAddress]
  · rw [hlines, hload]
    rfl

/-- A wanted symbol whose padding reaches without gaps up to the line that closes it. If the padding
starts at its header, it is left out. Otherwise it is cut off where the padding starts, unless there
is a symbol of its name already, and its map stays as it is then up to the end of the listing. -/
theorem read_cutOff (wanted : String → Bool) (before : List String) {body : List String}
    (hheader : LineKind.ofLine t header.toList = .header offset label)
    (hwanted : wanted label = true) (hplain : Plain t e.loadAddress body)
    (hcloser : headerAt? t e.loadAddress closer = some stop ∨
      sentinelAt? t e.loadAddress closer = some stop)
    (htiled : Tiled ({ text := header } :: body.map (bodyLine t e.loadAddress))
      (e.loadAddress + offset) stop) :
    let lines : List CodeLine := { text := header } :: body.map (bodyLine t e.loadAddress)
    let start := e.loadAddress + offset
    ∃ r r', Reader.run t wanted { executable := e } (before ++ header :: body) = .ok r ∧
      r.step t wanted closer = .ok r' ∧
      (r.executable.maps.contains label = false →
        (Padding.first lines stop = start →
          r'.executable = r.executable ∧ r'.resolved = r.resolved) ∧
        (Padding.first lines stop ≠ start →
          ∃ s m, r'.resolved = r.resolved.push s ∧ s.name = label ∧ CutOff s m lines start stop ∧
            ∀ after failure,
              let all := (before ++ header :: body) ++ closer :: after
              (read t wanted e { lines := all, failure }).state.maps[label]? = some m ∧
                (failure = none → ∃ found,
                  (read t wanted e { lines := all, failure }).result = .ok found ∧
                    s ∈ found))) := by
  intro lines start
  obtain ⟨r, o, hrun, ho, hload, hname, hstart, hlines⟩ :=
    exists_open before hheader hwanted hplain
  obtain ⟨r', hstep, hclosed⟩ := Reader.step_cutOff wanted ho (hload ▸ hcloser)
    (by rwa [hlines, hstart])
  rw [hname, hstart, hlines] at hclosed
  refine ⟨r, r', hrun, hstep, fun hnew => ⟨(hclosed hnew).1, fun hfirst => ?_⟩⟩
  obtain ⟨s, m, hresolved, hs, hcut, hm⟩ := (hclosed hnew).2 hfirst
  refine ⟨s, m, hresolved, hs, hcut, fun after failure => ?_⟩
  have hread : Reader.run t wanted { executable := e } ((before ++ header :: body) ++ [closer]) =
      .ok r' := by
    rw [Reader.run_append hrun, Reader.run, List.foldlM_cons, hstep]
    rfl
  obtain ⟨hstays, hfound⟩ := Reader.read_keeps hread after failure
  have hall : (before ++ header :: body) ++ [closer] ++ after =
      (before ++ header :: body) ++ closer :: after := by
    simp
  rw [hall] at hstays hfound
  refine ⟨hstays label m hm, fun hnofailure => ?_⟩
  obtain ⟨found, hresult, hprefix⟩ := hfound hnofailure
  refine ⟨found, hresult, hprefix.subset ?_⟩
  rw [hresolved]
  simp

def padded : List String :=
  ["     100:\tc3                  \tret", "     101:\t90                  \tnop",
    "     102:\t66 90               \txchg   %ax,%ax"]

theorem read_cutOff_padded :
    let e : Executable := { id := 0, file := "a.exe" }
    ∃ m, (read i386 (["f"].contains ·) e
        { lines := "00000100 <f>:" :: padded ++ ["00000104 <g>:"] }).state.maps["f"]? = some m ∧
      m.low = 0x100 ∧ m.high = 0x100 := by
  intro e
  have hheader : LineKind.ofLine i386 "00000100 <f>:".toList = .header 0x100 "f" := by
    decide +kernel
  have hplain : Plain i386 e.loadAddress padded := by decide +kernel
  have hcloser : headerAt? i386 e.loadAddress "00000104 <g>:" = some 0x104 := by decide +kernel
  obtain ⟨r, r', hrun, -, hclosed⟩ := read_cutOff (["f"].contains ·) [] hheader (by decide +kernel)
    hplain (.inl hcloser) (by decide +kernel)
  have hnew : r.executable.maps.contains "f" = false := by
    have hopened : (Reader.run i386 (["f"].contains ·) { executable := e }
        ([] ++ "00000100 <f>:" :: padded)).toOption.map (·.executable.maps.contains "f") =
          some false := by
      decide +kernel
    rw [hrun] at hopened
    exact Option.some.inj hopened
  obtain ⟨s, m, _, _, hcut, hread⟩ := (hclosed hnew).2 (by decide +kernel)
  have hmap := (hread [] none).1
  rw [List.nil_append] at hmap
  refine ⟨m, hmap, hcut.low, ?_⟩
  have hfirst : (Padding.first ({ text := "00000100 <f>:" } :: padded.map (bodyLine i386
      e.loadAddress)) 0x104).toNat = 0x100 + 1 := by
    decide +kernel
  exact UInt32.toNat_inj.1 (Nat.add_right_cancel (hcut.high.trans hfirst))

end

end Listing

end TraceCoverage

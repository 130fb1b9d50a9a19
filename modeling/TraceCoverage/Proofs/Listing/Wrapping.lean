import TraceCoverage.Proofs.Listing.Tiling
import TraceCoverage.Proofs.Text.Scanning

/-!
# Padding with a wrapped encoding

A long encoding goes on over lines that hold bytes only, and these are text. A nop is taken off with
the bytes of its own line, so that those of the lines behind it stay in the symbol: its map ends
before the padding exactly if no line goes on with the encoding.
-/

namespace TraceCoverage

theorem Architecture.nopSize_of_shown {a : Architecture} {insn : InsnLine}
    (hpadding : (a.nopSize insn).isSome = true) (hshown : insn.encodingLength ≠ 0) :
    a.nopSize insn = some insn.encodingLength := by
  unfold nopSize at hpadding ⊢
  dsimp only at hpadding ⊢
  split
  next => rw [InsnLine.sizeOr, if_neg hshown]
  next hnot =>
    rw [if_neg hnot] at hpadding
    cases hpadding

namespace Listing

/-! ## The last nop of a body -/

def shownBytes (line : String) : Nat :=
  ((InsnLine.ofChars? line.toList).map (·.encodingLength.toNat)).getD 0

def shownOn (lines : List String) : Nat := (lines.map shownBytes).foldr (· + ·) 0

theorem shownOn_eq_zero_iff {lines : List String} :
    shownOn lines = 0 ↔ ∀ line ∈ lines, shownBytes line = 0 := by
  induction lines with
  | nil => simp [shownOn]
  | cons line rest ih =>
    rw [List.forall_mem_cons, ← ih, shownOn, List.map_cons, List.foldr_cons, ← shownOn]
    omega

/-- The code of a symbol, and a nop that fills the space between the code and the line that closes
the symbol. The nop shows its bytes on its own line and on the lines behind it. Without those of its
own line, something is left of the symbol. -/
structure Wraps (t : Target) (bias start : Address) (code : List String) (nop : String)
    (more : List String) (padding stop : Address) : Prop where
  plain : Plain t bias code
  busy : ∀ line ∈ code, (bodyLine t bias line).isNop = false
  address : (bodyLine t bias nop).address = some padding
  isNop : (bodyLine t bias nop).isNop = true
  shows : 0 < shownBytes nop
  text : ∀ line ∈ more, LineKind.ofLine t line.toList = .text
  start_lt : start.toNat < padding.toNat + shownOn more
  fits : padding.toNat + shownBytes nop + shownOn more = stop.toNat

variable {t : Target} {bias start padding stop : Address} {code more : List String} {nop : String}

theorem ofLine_of_address {line : String} {a : Address}
    (h : (bodyLine t bias line).address = some a) :
    ∃ offset, LineKind.ofLine t line.toList = .instruction offset ∧
      bodyLine t bias line = codeLine t bias a line := by
  unfold bodyLine at h ⊢
  split at h
  next offset hkind =>
    obtain rfl : bias + offset = a := Option.some.inj h
    exact ⟨offset, hkind, rfl⟩
  next => cases h

theorem nopSize_bodyLine {name : String} {a : Architecture} {line : String} {at' : Address}
    (haddress : (bodyLine (.ofArchitecture name a) bias line).address = some at')
    (hnop : (bodyLine (.ofArchitecture name a) bias line).isNop = true)
    (hshown : 0 < shownBytes line) :
    (bodyLine (.ofArchitecture name a) bias line).nopSize = shownBytes line := by
  obtain ⟨_, -, hline⟩ := ofLine_of_address haddress
  rw [hline] at hnop ⊢
  change ((InsnLine.ofChars? line.toList).bind a.nopSize).isSome = true at hnop
  change (((InsnLine.ofChars? line.toList).bind a.nopSize).getD 0).toNat = _
  unfold shownBytes at hshown ⊢
  cases hinsn : InsnLine.ofChars? line.toList with
  | none =>
    rw [hinsn] at hnop
    cases hnop
  | some insn =>
    rw [hinsn] at hnop hshown
    have hne : insn.encodingLength ≠ 0 := by
      intro hzero
      rw [Option.map_some, Option.getD_some, hzero] at hshown
      exact absurd hshown (by decide)
    rw [Option.bind_some, Architecture.nopSize_of_shown hnop hne]
    rfl

namespace Wraps

theorem plain_body (h : Wraps t bias start code nop more padding stop) :
    Plain t bias (code ++ nop :: more) := by
  have hkind : ∀ line, (∃ offset, LineKind.ofLine t line.toList = .instruction offset) ∨
      LineKind.ofLine t line.toList = .text →
        headerAt? t bias line = none ∧ sentinelAt? t bias line = none := by
    rintro line (⟨offset, hline⟩ | hline) <;> simp [headerAt?, sentinelAt?, hline]
  obtain ⟨offset, hnop, -⟩ := ofLine_of_address h.address
  intro line hline
  rcases List.mem_append.1 hline with hline | hline
  · exact h.plain line hline
  · rcases List.mem_cons.1 hline with rfl | hline
    · exact hkind _ (.inl ⟨offset, hnop⟩)
    · exact hkind _ (.inr (h.text line hline))

theorem trim_eq {name header : String} {a : Architecture}
    (h : Wraps (.ofArchitecture name a) bias start code nop more padding stop) :
    let line := bodyLine (.ofArchitecture name a) bias
    Padding.trim ({ text := header } :: (code ++ nop :: more).map line) =
      ({ text := header } :: (code ++ more).map line, shownBytes nop) := by
  intro line
  have hbody : ({ text := header } :: (code ++ nop :: more).map line : List CodeLine) =
      ({ text := header } :: code.map line) ++ [line nop] ++ more.map line := by
    simp
  have hbusy : ∀ l ∈ ({ text := header } :: code.map line : List CodeLine), l.isNop = false := by
    rw [List.forall_mem_cons, List.forall_mem_map]
    exact ⟨rfl, h.busy⟩
  have htext : ∀ l ∈ more.map line, l.isInstruction = false := by
    rw [List.forall_mem_map]
    intro other hother
    simp [line, bodyLine, h.text other hother, CodeLine.isInstruction]
  have hinstruction : (line nop).isInstruction = true := by
    rw [CodeLine.isInstruction, h.address]
    rfl
  have hlast : ∀ l ∈ (({ text := header } :: code.map line) ++ [line nop]).getLast?,
      l.isInstruction = true := by
    rw [List.getLast?_concat]
    rintro _ ⟨⟩
    exact hinstruction
  obtain ⟨hleading, hremoved, htrailing⟩ := Padding.parts_append
    (fun l hl => hbusy l (List.mem_of_mem_getLast? hl))
    (List.forall_mem_singleton.2 h.isNop) hlast htext
  rw [hbody, Padding.trim_eq, hleading, hremoved, htrailing]
  simp [line, nopSize_bodyLine h.address h.isNop h.shows]

theorem exists_symbol? {name : String} {a : Architecture}
    (h : Wraps (.ofArchitecture name a) bias start code nop more padding stop)
    (header label : String) :
    ∃ s, Segment.symbol?
        { label, start
          body := { text := header } ::
            (code ++ nop :: more).map (bodyLine (.ofArchitecture name a) bias)
          last := stop - 1 } = some s ∧
      s.last.toNat + 1 = padding.toNat + shownOn more := by
  have hstart := h.start_lt
  have hstop := stop.toNat_lt
  have hfits := h.fits
  have hend : (stop - 1).toNat = stop.toNat - 1 :=
    Address.toNat_sub_one_of_lt (UInt32.lt_iff_toNat_lt.2 (by omega : start.toNat < stop.toNat))
  have hbytes : (Padding.bytes ({ text := header } ::
      (code ++ nop :: more).map (bodyLine (.ofArchitecture name a) bias))).toNat =
        shownBytes nop := by
    rw [Padding.bytes, h.trim_eq, UInt32.toNat_ofNat_of_lt']
    · omega
    · exact Nat.lt_of_le_of_lt (Nat.min_le_right _ _) (by decide)
  obtain ⟨s, hs, hlast⟩ := Segment.exists_symbol? (g :=
    { label, start
      body := { text := header } ::
        (code ++ nop :: more).map (bodyLine (.ofArchitecture name a) bias)
      last := stop - 1 }) (by dsimp only; omega)
  dsimp only at hlast
  exact ⟨s, hs, by omega⟩

end Wraps

/-! ## Reading such a body -/

/-- A wanted symbol that ends in one nop, with code in front of it, whose bytes reach up to the next
header. Unless there is a symbol of its name already, its map ends behind the bytes that stand on
the lines behind the nop. So it ends before the nop exactly if these lines show no byte, which is if
the encoding of the nop fits on one line. -/
theorem read_wrapped {name : String} {a : Architecture} {e : Executable}
    {header closer label : String} {offset : UInt32} (wanted : String → Bool)
    (before : List String)
    (hheader : LineKind.ofLine (.ofArchitecture name a) header.toList = .header offset label)
    (hwanted : wanted label = true)
    (hwraps : Wraps (.ofArchitecture name a) e.loadAddress (e.loadAddress + offset) code nop more
      padding stop)
    (hcloser : headerAt? (.ofArchitecture name a) e.loadAddress closer = some stop) :
    let t := Target.ofArchitecture name a
    let front := before ++ header :: (code ++ nop :: more)
    ∃ r, Reader.run t wanted { executable := e } front = .ok r ∧
      (r.executable.maps.contains label = false →
        ∃ s m, s.name = label ∧ s.Draws m ∧ m.low = e.loadAddress + offset ∧
          m.high.toNat + 1 = padding.toNat + shownOn more ∧
          (m.high.toNat + 1 = padding.toNat ↔ ∀ line ∈ more, shownBytes line = 0) ∧
          ∀ after failure,
            let stream : TextStream := { lines := front ++ closer :: after, failure }
            (read t wanted e stream).state.maps[label]? = some m ∧
              (failure = none → ∃ found,
                (read t wanted e stream).result = .ok found ∧ s ∈ found)) := by
  intro t front
  obtain ⟨r, o, hrun, ho, hload, hname, hstart, hlines⟩ :=
    exists_open before hheader hwanted hwraps.plain_body
  refine ⟨r, hrun, fun hnew => ?_⟩
  obtain ⟨s, hs, hlast⟩ := hwraps.exists_symbol? header label
  have hsymbol : (o.closedAt (stop - 1)).symbol? = some s := by
    rw [← hs, OpenSymbol.closedAt, hname, hstart, hlines]
  obtain ⟨r', m, hstep, hresolved, hdraws, hm⟩ :=
    Reader.step_resolves wanted ho (.inl (hload ▸ hcloser)) hsymbol (by rwa [hname])
  have hhigh : m.high.toNat + 1 = padding.toNat + shownOn more := by rw [hdraws.high, hlast]
  refine ⟨s, m, (Segment.of_symbol? hs).1, hdraws, hdraws.low.trans (Segment.of_symbol? hs).2.1,
    hhigh, ?_, fun after failure => ?_⟩
  · rw [hhigh, ← shownOn_eq_zero_iff]
    omega
  · obtain ⟨hstays, hfound⟩ := Reader.read_keeps_step hrun hstep after failure
    refine ⟨hstays label m (hname ▸ hm), fun hnofailure => ?_⟩
    obtain ⟨found, hresult, hprefix⟩ := hfound hnofailure
    exact ⟨found, hresult, hprefix.subset (by simp [hresolved])⟩

def ret : String := "     100:\tc3                   \tret    "

def longNop : String := "     101:\t66 66 2e 0f 1f 84 00 \tnopw   %cs:0x0(%eax,%eax,1)"

def longNopRest : String := "     108:\t00 00 00 00 "

theorem wraps_longNop : Wraps i386 0 0x100 [ret] longNop [longNopRest] 0x101 0x10c where
  plain := by decide +kernel
  busy := by decide +kernel
  address := by decide +kernel
  isNop := by decide +kernel
  shows := by decide +kernel
  text := by decide +kernel
  start_lt := by decide +kernel
  fits := by decide +kernel

theorem read_wrapped_longNop :
    let e : Executable := { id := 0, file := "a.exe" }
    ∃ m, (read (.ofArchitecture "i386-elf" .i386) (["f"].contains ·) e
        { lines := "00000100 <f>:" :: ([ret] ++ longNop :: [longNopRest]) ++ ["0000010c <g>:"]
          }).state.maps["f"]? = some m ∧
      m.low = 0x100 ∧ m.high.toNat + 1 = (0x101 : Address).toNat + shownOn [longNopRest] := by
  intro e
  have hheader : LineKind.ofLine i386 "00000100 <f>:".toList = .header 0x100 "f" := by
    decide +kernel
  have hcloser : headerAt? i386 e.loadAddress "0000010c <g>:" = some 0x10c := by decide +kernel
  obtain ⟨r, hrun, hclosed⟩ := read_wrapped (e := e) (["f"].contains ·) [] hheader
    (by decide +kernel) wraps_longNop hcloser
  rw [List.nil_append] at hrun
  have hnew : r.executable.maps.contains "f" = false := by
    have hopened : (Reader.run (.ofArchitecture "i386-elf" .i386) (["f"].contains ·)
        { executable := e } ("00000100 <f>:" :: ([ret] ++ longNop :: [longNopRest]))).toOption.map
          (·.executable.maps.contains "f") = some false := by
      decide +kernel
    rw [hrun] at hopened
    exact Option.some.inj hopened
  obtain ⟨s, m, _, _, hlow, hhigh, _, hread⟩ := hclosed hnew
  have hmap := (hread [] none).1
  rw [List.nil_append] at hmap
  exact ⟨m, hmap, hlow, hhigh⟩

/-- The four bytes behind the first line of the nop stay in the map of the symbol, which has one byte
of code. -/
theorem padding_stays_when_wrapped :
    Wraps i386 0 0x100 [ret] longNop [longNopRest] 0x101 0x10c ∧
      ∃ m, (read i386 (["f"].contains ·) { id := 0, file := "a.exe" }
          { lines := ["00000100 <f>:", ret, longNop, longNopRest, "0000010c <g>:"]
            }).state.maps["f"]? = some m ∧
        m.low = 0x100 ∧ m.high = 0x104 ∧ m.high + 1 ≠ 0x101 := by
  refine ⟨wraps_longNop, ?_⟩
  have hread : ((read i386 (["f"].contains ·) { id := 0, file := "a.exe" }
      { lines := ["00000100 <f>:", ret, longNop, longNopRest, "0000010c <g>:"]
        }).state.maps["f"]?).map (fun m => (m.low, m.high)) = some (0x100, 0x104) := by
    decide +kernel
  obtain ⟨m, hm, hends⟩ := Option.map_eq_some_iff.1 hread
  obtain ⟨hlow, hhigh⟩ := Prod.mk.inj hends
  exact ⟨m, hm, hlow, hhigh, by rw [hhigh]; decide⟩

end Listing

end TraceCoverage

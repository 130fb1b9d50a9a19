import TraceCoverage.Proofs.Listing.Ordered

/-!
# Where a listing ends

The last symbol of a listing ends with the first byte of its last instruction, and only then loses
its padding in full. Its code stays inside it exactly if the padding is not larger than what the
listing shows behind the code.
-/

namespace TraceCoverage.Listing

/-! ## The last segment -/

variable {t : Target} {bias : Address} (before : List String) {rest : List String}
  {header label : String} {offset : UInt32}

theorem exists_segments_append (t : Target) (bias : Address) (before lines : List String) :
    ∃ earlier, segments t bias (before ++ lines) = earlier ++ segments t bias lines := by
  induction before with
  | nil => exact ⟨[], rfl⟩
  | cons line rest ih =>
    obtain ⟨earlier, hearlier⟩ := ih
    rcases header_or_not t bias line (rest ++ lines) with ⟨offset, label, _, hsegments⟩ |
      ⟨_, hsegments⟩
    · refine ⟨segmentOf t bias offset label line (rest ++ lines) :: earlier, ?_⟩
      rw [List.cons_append, hsegments, hearlier, List.cons_append]
    · refine ⟨earlier, ?_⟩
      rw [List.cons_append, hsegments, hearlier]

/-- Lines that neither start a symbol nor end one. -/
def Plain (t : Target) (bias : Address) (lines : List String) : Prop :=
  ∀ line ∈ lines, headerAt? t bias line = none ∧ sentinelAt? t bias line = none

instance (t : Target) (bias : Address) : DecidablePred (Plain t bias) := fun lines =>
  inferInstanceAs (Decidable (∀ line ∈ lines, _))

namespace Plain

variable (h : Plain t bias rest)
include h

theorem segments_eq : segments t bias rest = [] := by
  induction rest with
  | nil => rfl
  | cons line lines ih =>
    obtain ⟨hline, hlines⟩ := List.forall_mem_cons.1 h
    rcases header_or_not t bias line lines with ⟨_, _, hat, _⟩ | ⟨_, hsegments⟩
    · rw [hline.1] at hat
      cases hat
    · rw [hsegments, ih hlines]

theorem upToHeader_eq : upToHeader t bias rest = rest := by
  unfold upToHeader
  rw [List.takeWhile_eq_self_iff]
  intro line hline
  rw [(h line hline).1]
  rfl

theorem stop?_eq : stop? t bias rest = none := by
  unfold stop?
  rw [h.upToHeader_eq, List.findSome?_eq_none_iff.2 fun line hline => (h line hline).2,
    List.findSome?_eq_none_iff.2 fun line hline => (h line hline).1]
  rfl

theorem getLast?_addresses
    (hcode : ∃ l ∈ (segmentOf t bias offset label header rest).body,
      l.isInstruction = true ∧ l.isNop = false) :
    ((segmentOf t bias offset label header rest).body.filterMap (·.address)).getLast? =
      some (segmentOf t bias offset label header rest).last := by
  obtain ⟨l, hl, hinstruction, _⟩ := hcode
  obtain ⟨a, ha⟩ := Option.isSome_iff_exists.1 hinstruction
  have hlast := List.getLast?_eq_some_getLast
    (List.ne_nil_of_mem (List.mem_filterMap.2 ⟨l, hl, ha⟩))
  rw [hlast]
  simp only [segmentOf, lastOf] at hlast ⊢
  rw [h.stop?_eq, hlast]
  rfl

end Plain

theorem exists_earlier_segments (hheader : LineKind.ofLine t header.toList = .header offset label)
    (hplain : Plain t bias rest) :
    ∃ earlier, segments t bias (before ++ header :: rest) =
      earlier ++ [segmentOf t bias offset label header rest] := by
  obtain ⟨earlier, hearlier⟩ := exists_segments_append t bias before (header :: rest)
  refine ⟨earlier, ?_⟩
  rw [hearlier, segments, hheader, hplain.segments_eq]

/-! ## The end of a segment -/

theorem le_of_getLast? {addresses : List Address} (hsorted : addresses.Pairwise (· < ·))
    {last a : Address} (hlast : addresses.getLast? = some last) (ha : a ∈ addresses) :
    a ≤ last := by
  obtain ⟨init, rfl⟩ := List.getLast?_eq_some_iff.1 hlast
  rw [List.mem_append, List.mem_singleton] at ha
  rcases ha with ha | rfl
  · exact UInt32.le_of_lt ((List.pairwise_append.1 hsorted).2.2 a ha last List.mem_cons_self)
  · exact UInt32.le_refl _

/-- The padding that ends a body takes no more bytes than the body shows from the last instruction
that is kept to the last one of all. -/
def PaddingFits (body : List CodeLine) : Prop :=
  ∀ kept ∈ ((Padding.trim body).1.filterMap (·.address)).getLast?,
    ∀ last ∈ (body.filterMap (·.address)).getLast?,
      kept.toNat + (Padding.bytes body).toNat ≤ last.toNat

-- An instance that goes through all addresses would never end, so the options are checked.
instance : DecidablePred PaddingFits := fun body =>
  decidable_of_iff
    ((((Padding.trim body).1.filterMap (·.address)).getLast?.all fun kept =>
      (body.filterMap (·.address)).getLast?.all fun last =>
        decide (kept.toNat + (Padding.bytes body).toNat ≤ last.toNat)) = true)
    (by simp only [PaddingFits, Option.all_eq_true, decide_eq_true_eq, Option.mem_def])

theorem Segment.keeps_iff {g : Segment} (hsorted : (g.body.filterMap (·.address)).Pairwise (· < ·))
    (hstart : ∀ a ∈ g.body.filterMap (·.address), g.start ≤ a)
    (hlast : (g.body.filterMap (·.address)).getLast? = some g.last)
    (hcode : ∃ l ∈ g.body, l.isInstruction = true ∧ l.isNop = false) :
    (∃ s, g.symbol? = some s ∧ ∀ a ∈ s.lines.filterMap (·.address), a ≤ s.last) ↔
      PaddingFits g.body := by
  have hsub : ((Padding.trim g.body).1.filterMap (·.address)).Sublist
      (g.body.filterMap (·.address)) := (Padding.trim_sublist g.body).filterMap _
  -- Trimming keeps the code that is no padding, so there is a last instruction that is kept.
  obtain ⟨kept, hkept⟩ : ∃ kept,
      ((Padding.trim g.body).1.filterMap (·.address)).getLast? = some kept := by
    obtain ⟨l, hl, hinstruction, hnop⟩ := hcode
    obtain ⟨a, ha⟩ := Option.isSome_iff_exists.1 hinstruction
    have hmem : a ∈ (Padding.trim g.body).1.filterMap (·.address) :=
      List.mem_filterMap.2 ⟨l, Padding.mem_trim hl hnop, ha⟩
    exact ⟨_, List.getLast?_eq_some_getLast (List.ne_nil_of_mem hmem)⟩
  have hmem : kept ∈ (Padding.trim g.body).1.filterMap (·.address) := List.mem_of_getLast? hkept
  have hfits : PaddingFits g.body ↔
      kept.toNat + (Padding.bytes g.body).toNat ≤ g.last.toNat := by
    unfold PaddingFits
    rw [hkept, hlast]
    simp
  rw [hfits]
  constructor
  · rintro ⟨s, hs, hle⟩
    obtain ⟨_, _, hpadding, heq, _⟩ := Segment.of_symbol? hs
    have hin := hle kept (by rwa [Segment.lines_of_symbol? hs])
    rw [UInt32.le_iff_toNat_le, heq, UInt32.toNat_sub_of_le _ _ hpadding] at hin
    rw [UInt32.le_iff_toNat_le] at hpadding
    omega
  · intro hle
    have hbehind := UInt32.le_iff_toNat_le.1 (hstart kept (hsub.mem hmem))
    obtain ⟨s, hs, hend⟩ := Segment.exists_symbol? (g := g) (by omega)
    refine ⟨s, hs, fun a ha => ?_⟩
    rw [Segment.lines_of_symbol? hs] at ha
    have hle_kept := UInt32.le_iff_toNat_le.1 (le_of_getLast? (hsorted.sublist hsub) hkept ha)
    exact UInt32.le_iff_toNat_le.2 (by omega)

/-! ## Reading to the end -/

/-- Reading finds a symbol of the name, and all code that the symbol keeps starts in its map. -/
def KeepsCode (read : Outcome Executable ListingError (List ResolvedSymbol)) (name : String) :
    Prop :=
  ∃ found, read.result = .ok found ∧ ∃ s ∈ found, s.name = name ∧
    ∃ m, read.state.maps[name]? = some m ∧
      ∀ a ∈ s.lines.filterMap (·.address), m.contains a = true ∧ (m.flagsAt a).isStart = true

theorem keepsCode_iff {wanted : String → Bool} {e : Executable} (he : e.Fresh)
    {lines : List String} {name : String} (hordered : Ordered t e.loadAddress lines) :
    KeepsCode (read t wanted e { lines }) name ↔
      ∃ s ∈ contributions t e.loadAddress wanted lines, s.name = name ∧
        ∀ a ∈ s.lines.filterMap (·.address), a ≤ s.last := by
  obtain ⟨hresult, hb⟩ := read_spec t wanted he lines
  unfold KeepsCode
  rw [hresult]
  constructor
  · rintro ⟨_, ⟨rfl⟩, s, hs, rfl, m, hm, hcode⟩
    refine ⟨s, hs, rfl, ?_⟩
    obtain ⟨m', hm', hdraws⟩ := hb.mapped s hs
    obtain rfl := Option.some.inj (hm.symm.trans hm')
    intro a ha
    exact (hdraws.contains_iff.1 (hcode a ha).1).2
  · rintro ⟨s, hs, rfl, hlast⟩
    obtain ⟨m, hm, hdraws⟩ := hb.mapped s hs
    refine ⟨_, rfl, s, hs, rfl, m, hm, ?_⟩
    intro a ha
    have hin : m.contains a = true :=
      hdraws.contains_iff.2 ⟨hordered.le_lines hs a ha, hlast a ha⟩
    refine ⟨hin, ?_⟩
    rw [hdraws.flagsAt hin, CodeLine.isStart_flagsAt]
    exact List.mem_filterMap.1 ha

theorem mem_contributions_last_iff {lines : List String} {wanted : String → Bool}
    {earlier : List Segment} {g : Segment} (hsegments : segments t bias lines = earlier ++ [g])
    (hwanted : wanted g.label = true)
    (hnew : ∀ g' ∈ earlier, g'.label = g.label → g'.symbol? = none) (s : ResolvedSymbol) :
    s ∈ contributions t bias wanted lines ∧ s.name = g.label ↔ g.symbol? = some s := by
  constructor
  · rintro ⟨hs, hname⟩
    obtain ⟨g', hg', _, hsymbol⟩ := exists_segment_of_mem hs
    rw [hsegments, List.mem_append, List.mem_singleton] at hg'
    rcases hg' with hg' | rfl
    · have hnone := hnew g' hg' ((Segment.of_symbol? hsymbol).1.symm.trans hname)
      rw [hsymbol] at hnone
      cases hnone
    · exact hsymbol
  · intro hs
    have hname : s.name = g.label := (Segment.of_symbol? hs).1
    have hnone : (earlier.filterMap Segment.symbol?).find? (·.name == g.label) = none := by
      rw [List.find?_eq_none]
      intro s' hs' hname'
      obtain ⟨g', hg', hsymbol⟩ := List.mem_filterMap.1 hs'
      rw [beq_iff_eq, (Segment.of_symbol? hsymbol).1] at hname'
      rw [hnew g' hg' hname'] at hsymbol
      cases hsymbol
    have hfound : (contributions t bias wanted lines).find? (·.name == g.label) = some s := by
      rw [find?_contributions hwanted, hsegments, List.filterMap_append, List.find?_append, hnone,
        Option.none_or, List.filterMap_cons, hs]
      simp [hname]
    exact ⟨List.mem_of_find?_eq_some hfound, hname⟩

/-- Reading keeps the code of the symbol that a listing ends in exactly if its padding fits. -/
theorem keepsCode_last_iff {wanted : String → Bool} {e : Executable} (he : e.Fresh)
    (hordered : Ordered t e.loadAddress (before ++ header :: rest))
    (hheader : LineKind.ofLine t header.toList = .header offset label)
    (hplain : Plain t e.loadAddress rest) (hwanted : wanted label = true)
    (hnew : ∀ g ∈ (segments t e.loadAddress (before ++ header :: rest)).dropLast,
      g.label = label → g.symbol? = none)
    (hcode : ∃ l ∈ bodyOf t e.loadAddress rest, l.isInstruction = true ∧ l.isNop = false) :
    KeepsCode (read t wanted e { lines := before ++ header :: rest }) label ↔
      PaddingFits (segmentOf t e.loadAddress offset label header rest).body := by
  obtain ⟨earlier, hsegments⟩ := exists_earlier_segments before hheader hplain
  have hbody : ∃ l ∈ (segmentOf t e.loadAddress offset label header rest).body,
      l.isInstruction = true ∧ l.isNop = false := by
    obtain ⟨l, hl, hkind⟩ := hcode
    exact ⟨l, List.mem_cons_of_mem _ hl, hkind⟩
  have hmem : segmentOf t e.loadAddress offset label header rest ∈
      segments t e.loadAddress (before ++ header :: rest) := by
    rw [hsegments]
    simp
  obtain ⟨hsorted, hstart⟩ := hordered.addresses_body hmem
  rw [hsegments, List.dropLast_concat] at hnew
  rw [keepsCode_iff he hordered,
    ← Segment.keeps_iff hsorted hstart (hplain.getLast?_addresses hbody) hbody]
  apply exists_congr
  intro s
  rw [← mem_contributions_last_iff hsegments hwanted hnew, and_assoc]
  rfl

theorem keepsCode_last_iff_ret :
    let e : Executable := { id := 0, file := "a.exe" }
    KeepsCode (read i386 (["f"].contains ·) e { lines := ["100 <f>:", "100:\tret", "101:\tnop"] })
      "f" := by
  intro e
  have hheader : LineKind.ofLine i386 "100 <f>:".toList = .header 0x100 "f" := by
    decide +kernel
  refine (keepsCode_last_iff (e := e) [] ⟨rfl, rfl, rfl⟩ ?_ hheader ?_ ?_ ?_ ?_).2 ?_
  all_goals decide +kernel

def overrun : List String :=
  ["     100:\tc3                  \tret", "     101:\t66 90               \txchg   %ax,%ax"]

/-- Two bytes of padding behind one byte of code leave nothing of the symbol. -/
theorem code_lost_to_padding :
    let e : Executable := { id := 0, file := "a.exe" }
    let lines := "00000100 <f>:" :: overrun
    Ordered i386 e.loadAddress lines ∧
      LineKind.ofLine i386 "00000100 <f>:".toList = .header 0x100 "f" ∧
      Plain i386 e.loadAddress overrun ∧ (segments i386 e.loadAddress lines).dropLast = [] ∧
      (∃ l ∈ bodyOf i386 e.loadAddress overrun, l.isInstruction = true ∧ l.isNop = false) ∧
      ¬ KeepsCode (read i386 (["f"].contains ·) e { lines }) "f" := by
  intro e lines
  refine ⟨by decide +kernel, by decide +kernel, by decide +kernel, by decide +kernel,
    by decide +kernel, ?_⟩
  rintro ⟨found, hfound, s, hs, _⟩
  have hnone : contributions i386 e.loadAddress (["f"].contains ·) lines = [] := by
    decide +kernel
  rw [(read_spec i386 _ (e := e) ⟨rfl, rfl, rfl⟩ lines).1, hnone] at hfound
  cases hfound
  cases hs

end TraceCoverage.Listing

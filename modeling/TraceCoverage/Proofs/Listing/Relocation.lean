import TraceCoverage.Proofs.Listing.Ordered

/-!
# A listing at another load address

The load address of an executable is added to every offset of its listing. As long as no address
passes the end of the address space, all that is read from the listing moves by the difference of
two load addresses, and nothing else changes: padding is trimmed alike, and the same symbols are
left.
-/

namespace TraceCoverage

def Address.Fits (b a : Address) : Prop := b.toNat + a.toNat < 0x100000000

instance (b a : Address) : Decidable (Address.Fits b a) :=
  inferInstanceAs (Decidable (b.toNat + a.toNat < 0x100000000))

namespace Address

variable {b a a' : Address}

theorem Fits.toNat_add (h : Fits b a) : (b + a).toNat = b.toNat + a.toNat := by
  rw [UInt32.toNat_add, Nat.mod_eq_of_lt h]

theorem Fits.of_le (h : Fits b a) (hle : a' ≤ a) : Fits b a' := by
  have := UInt32.le_iff_toNat_le.1 hle
  unfold Fits at *
  omega

theorem Fits.add_le_add_iff (h : Fits b a) (h' : Fits b a') : b + a ≤ b + a' ↔ a ≤ a' := by
  rw [UInt32.le_iff_toNat_le, UInt32.le_iff_toNat_le, h.toNat_add, h'.toNat_add]
  omega

theorem Fits.add_lt_add_iff (h : Fits b a) (h' : Fits b a') : b + a < b + a' ↔ a < a' := by
  rw [UInt32.lt_iff_toNat_lt, UInt32.lt_iff_toNat_lt, h.toNat_add, h'.toNat_add]
  omega

end Address

/-! ## Lines -/

namespace CodeLine

def shift (b : Address) (l : CodeLine) : CodeLine :=
  { l with
    address := l.address.map (b + ·)
    branch := l.branch.map fun branch => { target := branch.target.map (b + ·) } }

def Fits (b : Address) (l : CodeLine) : Prop :=
  ∀ a, l.address = some a ∨ l.target? = some a → Address.Fits b a

variable (b : Address) (l : CodeLine)

@[simp]
theorem isInstruction_shift : (l.shift b).isInstruction = l.isInstruction := by
  simp [shift, isInstruction]

@[simp]
theorem isBranch_shift : (l.shift b).isBranch = l.isBranch := by
  simp [shift, isBranch]

@[simp]
theorem isNop_shift : (l.shift b).isNop = l.isNop := rfl

@[simp]
theorem nopSize_shift : (l.shift b).nopSize = l.nopSize := rfl

@[simp]
theorem target?_shift : (l.shift b).target? = l.target?.map (b + ·) := by
  cases h : l.branch <;> simp [shift, target?, h]

@[simp]
theorem flags_shift : (l.shift b).flags = l.flags := by
  rw [flags, isBranch_shift]
  rfl

theorem address_shift_eq_some_iff {a : Address} :
    (l.shift b).address = some (b + a) ↔ l.address = some a := by
  cases h : l.address <;> simp [shift, h]

variable {b} {lines : List CodeLine}

theorem addresses_shift :
    (lines.map (shift b)).filterMap (·.address) = (lines.filterMap (·.address)).map (b + ·) := by
  rw [List.filterMap_map, List.map_filterMap]
  rfl

theorem flagsAt_shift (a : Address) : flagsAt (lines.map (shift b)) (b + a) = flagsAt lines a := by
  induction lines with
  | nil => rfl
  | cons l rest ih =>
    simp only [List.map_cons, flagsAt, ih, address_shift_eq_some_iff, flags_shift]

theorem targetAt?_shift (a : Address) :
    targetAt? (lines.map (shift b)) (b + a) = (targetAt? lines a).map (b + ·) := by
  induction lines with
  | nil => rfl
  | cons l rest ih =>
    simp only [List.map_cons, targetAt?, ih, address_shift_eq_some_iff, target?_shift,
      Option.map_or]
    split <;> rfl

end CodeLine

/-! ## Padding -/

namespace Padding

variable (b : Address) (lines : List CodeLine)

theorem trim_shift :
    trim (lines.map (CodeLine.shift b)) = ((trim lines).1.map (CodeLine.shift b), (trim lines).2) := by
  have hcode : ((!·.isInstruction) : CodeLine → Bool) ∘ CodeLine.shift b = (!·.isInstruction) := by
    funext l
    simp
  have hnop : ((·.isNop) : CodeLine → Bool) ∘ CodeLine.shift b = (·.isNop) := by
    funext l
    simp
  have hsize : ((·.nopSize) : CodeLine → Nat) ∘ CodeLine.shift b = (·.nopSize) := by
    funext l
    simp
  simp only [trim, ← List.map_reverse, List.takeWhile_map, List.dropWhile_map, hcode, hnop,
    List.map_map, hsize, ← List.map_append]

theorem bytes_shift : bytes (lines.map (CodeLine.shift b)) = bytes lines := by
  rw [bytes, trim_shift]
  rfl

end Padding

/-! ## Symbols -/

namespace ResolvedSymbol

def shift (b : Address) (s : ResolvedSymbol) : ResolvedSymbol :=
  { s with base := b + s.base, lines := s.lines.map (CodeLine.shift b) }

structure Fits (b : Address) (s : ResolvedSymbol) : Prop where
  base : s.base ≤ s.last
  last : Address.Fits b s.last
  lines : ∀ l ∈ s.lines, l.Fits b

theorem last_shift (b : Address) (s : ResolvedSymbol) : (s.shift b).last = b + s.last :=
  UInt32.add_assoc _ _ _

end ResolvedSymbol

namespace Listing

namespace Segment

def shift (b : Address) (g : Segment) : Segment :=
  { g with start := b + g.start, body := g.body.map (CodeLine.shift b), last := b + g.last }

variable {b : Address} {g : Segment}

structure Fits (b : Address) (g : Segment) : Prop where
  start : Address.Fits b g.start
  last : Address.Fits b g.last
  body : ∀ l ∈ g.body, l.Fits b

/-- What is left of a segment without its padding does not depend on where it lies. -/
theorem symbol?_shift (hstart : Address.Fits b g.start) (hlast : Address.Fits b g.last) :
    (g.shift b).symbol? = g.symbol?.map (ResolvedSymbol.shift b) := by
  have hempty : b + g.last < Padding.bytes g.body ∨
      b + g.last - Padding.bytes g.body < b + g.start ↔
      g.last < Padding.bytes g.body ∨ g.last - Padding.bytes g.body < g.start := by
    generalize Padding.bytes g.body = p
    have hstart' := hstart.toNat_add
    have hlast' := hlast.toNat_add
    simp only [UInt32.lt_iff_toNat_lt]
    unfold Address.Fits at hstart hlast
    rcases Nat.lt_or_ge g.last.toNat p.toNat with h | h
    · -- Padding that reaches below address 0 reaches below the start when moved.
      rcases Nat.lt_or_ge (b + g.last).toNat p.toNat with h' | h'
      · omega
      · rw [UInt32.toNat_sub_of_le (b + g.last) _ (UInt32.le_iff_toNat_le.2 h')]
        omega
    · have h' : p.toNat ≤ (b + g.last).toNat := by omega
      rw [UInt32.toNat_sub_of_le _ _ (UInt32.le_iff_toNat_le.2 h),
        UInt32.toNat_sub_of_le _ _ (UInt32.le_iff_toNat_le.2 h')]
      omega
  have hsize (p : Address) : b + g.last - p - (b + g.start) + 1 = g.last - p - g.start + 1 := by
    grind
  simp only [symbol?, shift, Padding.bytes_shift, Padding.trim_shift, hempty]
  split
  · rfl
  · rw [hsize]
    rfl

end Segment

section

variable (t : Target) (b bias : Address)

theorem headerAt?_shift (line : String) :
    headerAt? t (b + bias) line = (headerAt? t bias line).map (b + ·) := by
  unfold headerAt?
  cases LineKind.ofLine t line.toList <;> simp [UInt32.add_assoc]

theorem sentinelAt?_shift (line : String) :
    sentinelAt? t (b + bias) line = (sentinelAt? t bias line).map (b + ·) := by
  unfold sentinelAt?
  cases LineKind.ofLine t line.toList <;> simp [UInt32.add_assoc]

theorem codeLine_shift (a : Address) (line : String) :
    codeLine t (b + bias) (b + a) line = (codeLine t bias a line).shift b := by
  unfold codeLine CodeLine.shift
  split <;> simp [Function.comp_def, UInt32.add_assoc]

theorem bodyLine_shift (line : String) :
    bodyLine t (b + bias) line = (bodyLine t bias line).shift b := by
  unfold bodyLine
  cases LineKind.ofLine t line.toList with
  | instruction offset =>
    have haddress : b + bias + offset = b + (bias + offset) := UInt32.add_assoc _ _ _
    simp only [haddress, codeLine_shift]
  | header | sentinel | text => rfl

theorem upToHeader_shift (lines : List String) :
    upToHeader t (b + bias) lines = upToHeader t bias lines := by
  simp only [upToHeader, headerAt?_shift, Option.isNone_map]

theorem bodyOf_shift (lines : List String) :
    bodyOf t (b + bias) lines = (bodyOf t bias lines).map (CodeLine.shift b) := by
  simp only [bodyOf, upToHeader_shift, sentinelAt?_shift, Option.isNone_map, List.map_map]
  congr 1
  funext line
  exact bodyLine_shift t b bias line

theorem stop?_shift (lines : List String) :
    stop? t (b + bias) lines = (stop? t bias lines).map (b + ·) := by
  have hfind {f g : String → Option Address} (h : ∀ line, f line = (g line).map (b + ·))
      (lines : List String) : lines.findSome? f = (lines.findSome? g).map (b + ·) := by
    rw [funext h, List.map_findSome?]
    rfl
  rw [stop?, stop?, upToHeader_shift, hfind (sentinelAt?_shift t b bias),
    hfind (headerAt?_shift t b bias), Option.map_or]

theorem lastOf_shift (start : Address) (body : List CodeLine) (lines : List String) :
    lastOf t (b + bias) (b + start) (body.map (CodeLine.shift b)) lines =
      b + lastOf t bias start body lines := by
  rw [lastOf, lastOf, stop?_shift, CodeLine.addresses_shift, List.getLast?_map]
  cases stop? t bias lines with
  | some stop =>
    change b + stop - 1 = b + (stop - 1)
    grind
  | none => cases (body.filterMap (·.address)).getLast? <;> rfl

theorem segments_shift (lines : List String) :
    segments t (b + bias) lines = (segments t bias lines).map (Segment.shift b) := by
  induction lines with
  | nil => rfl
  | cons line rest ih =>
    unfold segments
    cases LineKind.ofLine t line.toList with
    | header offset label =>
      simp only [ih, List.map_cons, List.cons.injEq, and_true]
      have hbody : ({ text := line } : CodeLine) :: bodyOf t (b + bias) rest =
          (({ text := line } : CodeLine) :: bodyOf t bias rest).map (CodeLine.shift b) := by
        rw [bodyOf_shift]
        rfl
      rw [segmentOf, hbody, UInt32.add_assoc, lastOf_shift]
      rfl
    | sentinel | instruction | text => exact ih

end

/-! ## The symbols of a listing -/

theorem foldl_keepFirst_shift (b : Address) (known symbols : List ResolvedSymbol) :
    (symbols.map (ResolvedSymbol.shift b)).foldl keepFirst (known.map (ResolvedSymbol.shift b)) =
      (symbols.foldl keepFirst known).map (ResolvedSymbol.shift b) := by
  induction symbols generalizing known with
  | nil => rfl
  | cons s rest ih =>
    rw [List.map_cons, List.foldl_cons, List.foldl_cons, ← ih]
    congr 1
    have hmem : (s.shift b).name ∈ (known.map (ResolvedSymbol.shift b)).map (·.name) ↔
        s.name ∈ known.map (·.name) := by
      rw [List.map_map]
      rfl
    simp only [keepFirst, hmem]
    split
    · rfl
    · rw [List.map_append, List.map_singleton]

section

variable (t : Target) (bias : Address) (wanted : String → Bool)

/-- The addresses that a line of a listing shows: where it stands, and where its branch goes. -/
def shownAddresses (line : String) : List Address :=
  match LineKind.ofLine t line.toList with
  | .header offset _ | .sentinel offset => [bias + offset]
  | .instruction offset =>
    (bias + offset) :: (codeLine t bias (bias + offset) line).target?.toList
  | .text => []

def Fits (b : Address) (lines : List String) : Prop :=
  ∀ line ∈ lines, ∀ a ∈ shownAddresses t bias line, Address.Fits b a

-- The addresses are read as a list, since an instance that goes through all would never end.
instance (b : Address) (lines : List String) : Decidable (Fits t bias b lines) :=
  decidable_of_iff
    ((lines.all fun line => (shownAddresses t bias line).all (decide <| Address.Fits b ·)) = true)
    (by simp only [Fits, List.all_eq_true, decide_eq_true_eq])

/-- Whether a wanted symbol is closed by a header or a sentinel at address 0, so that it reaches
around the address space. -/
def closesAtZero : List String → Bool
  | [] => false
  | line :: rest =>
    (match LineKind.ofLine t line.toList with
      | .header _ label => wanted label && stop? t bias rest == some 0
      | _ => false) || closesAtZero rest

end

section

variable {t : Target} {b bias : Address} {wanted : String → Bool} {line : String}
  {lines : List String}

theorem fits_bodyLine (h : ∀ a ∈ shownAddresses t bias line, Address.Fits b a) :
    (bodyLine t bias line).Fits b := by
  unfold bodyLine
  unfold shownAddresses at h
  cases hk : LineKind.ofLine t line.toList with
  | instruction offset =>
    simp only [hk, List.mem_cons, Option.mem_toList] at h
    rintro a (ha | ha)
    · exact h a (.inl (Option.some.inj ha).symm)
    · exact h a (.inr ha)
  | header | sentinel | text => simp [CodeLine.Fits, CodeLine.target?]

theorem fits_bodyOf (h : Fits t bias b lines) : ∀ l ∈ bodyOf t bias lines, l.Fits b := by
  intro l hl
  obtain ⟨line, hline, rfl⟩ := List.mem_map.1 hl
  have hmem := (List.takeWhile_sublist _).mem ((List.takeWhile_sublist _).mem hline)
  exact fits_bodyLine (h line hmem)

theorem fits_stop? (h : Fits t bias b lines) {a : Address} (hstop : stop? t bias lines = some a) :
    Address.Fits b a := by
  have hline : ∀ line ∈ lines, headerAt? t bias line = some a ∨ sentinelAt? t bias line = some a →
      Address.Fits b a := by
    intro line hmem hat
    apply h line hmem
    unfold headerAt? sentinelAt? at hat
    unfold shownAddresses
    cases hk : LineKind.ofLine t line.toList <;> simp_all
  rw [stop?, Option.or_eq_some_iff] at hstop
  rcases hstop with hstop | ⟨_, hstop⟩
  · obtain ⟨line, hmem, hat⟩ := List.exists_of_findSome?_eq_some hstop
    exact hline line ((List.takeWhile_sublist _).mem hmem) (.inr hat)
  · obtain ⟨line, hmem, hat⟩ := List.exists_of_findSome?_eq_some hstop
    exact hline line hmem (.inl hat)

theorem fits_segmentOf {offset : UInt32} {label : String}
    (hstart : Address.Fits b (bias + offset)) (h : Fits t bias b lines)
    (hzero : stop? t bias lines ≠ some 0) : (segmentOf t bias offset label line lines).Fits b := by
  have hbody : ∀ l ∈ (segmentOf t bias offset label line lines).body, l.Fits b := by
    intro l hl
    rcases List.mem_cons.1 hl with rfl | hl
    · simp [CodeLine.Fits, CodeLine.target?]
    · exact fits_bodyOf h l hl
  refine ⟨hstart, ?_, hbody⟩
  change Address.Fits b (lastOf t bias (bias + offset) _ lines)
  rw [lastOf]
  cases hstop : stop? t bias lines with
  | some stop =>
    have hne : stop ≠ 0 := fun heq => hzero (heq ▸ hstop)
    refine (fits_stop? h hstop).of_le (UInt32.le_iff_toNat_le.2 ?_)
    rw [Option.map_some, Option.getD_some, Address.toNat_sub_one hne]
    exact Nat.sub_le _ _
  | none =>
    rw [Option.map_none, Option.getD_none]
    cases hlast : List.getLast? _ with
    | none => exact hstart
    | some a =>
      obtain ⟨l, hl, ha⟩ := List.mem_filterMap.1 (List.mem_of_getLast? hlast)
      exact hbody l hl a (.inl ha)

theorem fits_segments (h : Fits t bias b lines) (hzero : closesAtZero t bias wanted lines = false) :
    ∀ g ∈ segments t bias lines, wanted g.label = true → g.Fits b := by
  induction lines with
  | nil => simp [segments]
  | cons line rest ih =>
    rw [closesAtZero, Bool.or_eq_false_iff] at hzero
    unfold Fits at h
    rw [List.forall_mem_cons] at h
    have hrest := ih h.2 hzero.2
    unfold segments
    cases hk : LineKind.ofLine t line.toList with
    | header offset label =>
      intro g hg hwanted
      rcases List.mem_cons.1 hg with rfl | hg
      · change wanted label = true at hwanted
        simp only [hk, hwanted, Bool.true_and, beq_eq_false_iff_ne] at hzero
        exact fits_segmentOf (h.1 _ (by simp [shownAddresses, hk])) h.2 hzero.1
      · exact hrest g hg hwanted
    | sentinel | instruction | text => exact hrest

theorem Segment.Fits.symbol {g : Segment} {s : ResolvedSymbol} (h : g.Fits b)
    (hs : g.symbol? = some s) : s.Fits b := by
  obtain ⟨_, _, hpadding, hlast, hle, _⟩ := Segment.of_symbol? hs
  have hle' : s.last ≤ g.last := by
    rw [hlast, UInt32.le_iff_toNat_le, UInt32.toNat_sub_of_le _ _ hpadding]
    exact Nat.sub_le _ _
  refine ⟨hle, h.last.of_le hle', fun l hl => ?_⟩
  rw [lines_of_symbol? hs] at hl
  exact h.body l ((Padding.trim_sublist g.body).mem hl)

section

variable (hfits : Fits t bias b lines) (hzero : closesAtZero t bias wanted lines = false)
include hfits hzero

/-- Where a listing is loaded decides where its symbols lie, and nothing else about them. -/
theorem contributions_shift :
    contributions t (b + bias) wanted lines =
      (contributions t bias wanted lines).map (ResolvedSymbol.shift b) := by
  have hlabel : ((fun g => wanted g.label) ∘ Segment.shift b) = fun g => wanted g.label := rfl
  have hsymbols : (((segments t bias lines).map (Segment.shift b)).filter
        (wanted ·.label)).filterMap Segment.symbol? =
      (((segments t bias lines).filter (wanted ·.label)).filterMap Segment.symbol?).map
        (ResolvedSymbol.shift b) := by
    rw [List.filter_map, hlabel, List.filterMap_map, List.map_filterMap]
    apply List.filterMap_congr
    intro g hg
    obtain ⟨hmem, hwanted⟩ := List.mem_filter.1 hg
    have hg := fits_segments hfits hzero g hmem hwanted
    exact Segment.symbol?_shift hg.start hg.last
  rw [contributions, contributions, ← settle_nil, ← settle_nil, settle, settle, segments_shift,
    hsymbols]
  exact foldl_keepFirst_shift b [] _

theorem fits_contributions : ∀ s ∈ contributions t bias wanted lines, s.Fits b := by
  intro s hs
  obtain ⟨g, hg, hwanted, hsymbol⟩ := exists_segment_of_mem hs
  exact (fits_segments hfits hzero g hg hwanted).symbol hsymbol

end

end

end Listing

end TraceCoverage

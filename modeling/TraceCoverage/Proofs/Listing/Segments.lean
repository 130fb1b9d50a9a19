import TraceCoverage.Proofs.Listing.Marking
import TraceCoverage.Proofs.TreeMap

/-!
# A listing cut at its headers

The reader goes line by line and keeps one symbol open. Here the listing is cut at its headers at
once: what a segment contributes depends on its own lines and on where the next segment starts. The
reader finds exactly these symbols, and builds their maps and targets and no others.
-/

namespace TraceCoverage.Listing

/-- One part of a listing: a header with the lines that belong to it. -/
structure Segment where
  label : String
  start : Address
  body : List CodeLine
  /-- The last address, padding included. -/
  last : Address

section

variable (t : Target) (bias : Address)

def headerAt? (line : String) : Option Address :=
  match LineKind.ofLine t line.toList with
  | .header offset _ => some (bias + offset)
  | _ => none

def sentinelAt? (line : String) : Option Address :=
  match LineKind.ofLine t line.toList with
  | .sentinel offset => some (bias + offset)
  | _ => none

def bodyLine (line : String) : CodeLine :=
  match LineKind.ofLine t line.toList with
  | .instruction offset => codeLine t bias (bias + offset) line
  | _ => { text := line }

def upToHeader (lines : List String) : List String :=
  lines.takeWhile fun line => (headerAt? t bias line).isNone

/-- The lines behind a header that are in its body: those before the first sentinel, if the next
header does not come first. -/
def bodyOf (lines : List String) : List CodeLine :=
  ((upToHeader t bias lines).takeWhile fun line => (sentinelAt? t bias line).isNone).map
    (bodyLine t bias)

/-- The address before which a symbol ends: its first sentinel, or else the next header. -/
def stop? (lines : List String) : Option Address :=
  ((upToHeader t bias lines).findSome? (sentinelAt? t bias)).or (lines.findSome? (headerAt? t bias))

/-- The last address of a symbol. One that nothing stops ends with its last instruction. -/
def lastOf (start : Address) (body : List CodeLine) (lines : List String) : Address :=
  ((stop? t bias lines).map (· - 1)).getD ((body.filterMap (·.address)).getLast?.getD start)

def segmentOf (offset : UInt32) (label line : String) (rest : List String) : Segment :=
  let body := { text := line } :: bodyOf t bias rest
  { label, start := bias + offset, body, last := lastOf t bias (bias + offset) body rest }

/-- The segments of a listing in order. Lines before the first header are in none. -/
def segments : List String → List Segment
  | [] => []
  | line :: rest =>
    match LineKind.ofLine t line.toList with
    | .header offset label => segmentOf t bias offset label line rest :: segments rest
    | _ => segments rest

end

def Segment.symbol? (s : Segment) : Option ResolvedSymbol :=
  let padding := Padding.bytes s.body
  if s.last < padding ∨ s.last - padding < s.start then none
  else
    some
      { name := s.label
        base := s.start
        size := s.last - padding - s.start + 1
        lines := (Padding.trim s.body).1 }

/-- The symbols of the wanted segments. Of several with one name the first counts. -/
def contributions (t : Target) (bias : Address) (wanted : String → Bool) (lines : List String) :
    List ResolvedSymbol :=
  (((segments t bias lines).filter (wanted ·.label)).filterMap Segment.symbol?).eraseDupsBy
    fun s s' => s.name == s'.name

end Listing

/-! ## What symbols build -/

namespace ResolvedSymbol

/-- The map of the symbol: from its base to its last address, with the flags of its lines. -/
structure Draws (s : ResolvedSymbol) (m : CoverageMap) : Prop where
  low : m.low = s.base
  high : m.high = s.last
  byte : ∀ i < m.size, m.byte i = CodeLine.flagsAt s.lines (m.address i)

theorem Draws.unique {s : ResolvedSymbol} {m m' : CoverageMap} (h : s.Draws m) (h' : s.Draws m') :
    m = m' := by
  have hlow : m.low = m'.low := h.low.trans h'.low.symm
  have hhigh : m.high.toNat = m'.high.toNat := by rw [h.high, h'.high]
  have hsize : m.size = m'.size := by
    have := m.size_pos
    have := m'.size_pos
    rw [CoverageMap.toNat_high, CoverageMap.toNat_high, hlow] at hhigh
    omega
  apply CoverageMap.ext_byte hlow hsize
  intro i hi
  rw [h.byte i hi, h'.byte i (hsize ▸ hi), CoverageMap.address, CoverageMap.address, hlow]

theorem Draws.contains_iff {s : ResolvedSymbol} {m : CoverageMap} (h : s.Draws m) {a : Address} :
    m.contains a = true ↔ s.base ≤ a ∧ a ≤ s.last := by
  rw [CoverageMap.contains, h.low, h.high, Bool.and_eq_true, decide_eq_true_eq, decide_eq_true_eq]

theorem Draws.flagsAt {s : ResolvedSymbol} {m : CoverageMap} (h : s.Draws m) {a : Address}
    (ha : m.contains a = true) : m.flagsAt a = CodeLine.flagsAt s.lines a := by
  obtain ⟨i, hi⟩ := CoverageMap.exists_offset? ha
  rw [CoverageMap.flagsAt_of_offset? hi, h.byte i (CoverageMap.offset?_eq_some_iff.1 hi).1,
    ← CoverageMap.eq_address_of_offset? hi]

def tableOf (symbols : List ResolvedSymbol) : SymbolTable :=
  symbols.foldl (fun t s => t.add s.name s.base s.size) {}

theorem tableOf_concat (symbols : List ResolvedSymbol) (s : ResolvedSymbol) :
    tableOf (symbols ++ [s]) = (tableOf symbols).add s.name s.base s.size := by
  rw [tableOf, List.foldl_append]
  rfl

end ResolvedSymbol

structure Executable.Fresh (e : Executable) : Prop where
  symbols : e.symbols = {}
  maps : e.maps = ∅
  targets : e.targets = ∅

/-- An executable that was fresh at first has symbols in it, and nothing but these. -/
structure Executable.Built (fresh : Executable) (symbols : List ResolvedSymbol) (e : Executable) :
    Prop where
  frame : e = { fresh with symbols := e.symbols, maps := e.maps, targets := e.targets }
  distinct : (symbols.map (·.name)).Nodup
  table : e.symbols = ResolvedSymbol.tableOf symbols
  mapped : ∀ s ∈ symbols, ∃ m, e.maps[s.name]? = some m ∧ s.Draws m
  named : ∀ name, e.maps.contains name → ∃ s ∈ symbols, s.name = name
  target : ∀ a, e.target? a = CodeLine.targetAt? (symbols.flatMap (·.lines)) a

theorem Executable.Fresh.built {e : Executable} (h : e.Fresh) : e.Built [] e where
  frame := rfl
  distinct := List.nodup_nil
  table := h.symbols
  mapped := by simp
  named := by simp [h.maps]
  target a := by simp [Executable.target?, h.targets, CodeLine.targetAt?]

namespace Executable.Built

variable {fresh e : Executable} {symbols : List ResolvedSymbol} {name : String}

theorem contains_iff (hb : fresh.Built symbols e) :
    e.maps.contains name ↔ name ∈ symbols.map (·.name) := by
  rw [List.mem_map]
  constructor
  · exact hb.named name
  · rintro ⟨s, hs, rfl⟩
    obtain ⟨m, hm, _⟩ := hb.mapped s hs
    exact TreeMap.contains_of_getElem? hm

theorem getElem?_maps_iff (hb : fresh.Built symbols e) {m : CoverageMap} :
    e.maps[name]? = some m ↔ ∃ s ∈ symbols, s.name = name ∧ s.Draws m := by
  constructor
  · intro hm
    obtain ⟨s, hs, rfl⟩ := hb.named name (TreeMap.contains_of_getElem? hm)
    obtain ⟨m', hm', hdraws⟩ := hb.mapped s hs
    obtain rfl := Option.some.inj (hm.symm.trans hm')
    exact ⟨s, hs, rfl, hdraws⟩
  · rintro ⟨s, hs, rfl, hdraws⟩
    obtain ⟨m', hm', hdraws'⟩ := hb.mapped s hs
    rw [hm', hdraws.unique hdraws']

end Executable.Built

namespace Listing

open Executable

variable {fresh e : Executable} {known : List ResolvedSymbol} {s : ResolvedSymbol}

theorem register_spec (hno : e.maps.contains s.name = false) (hle : s.base ≤ s.last) :
    ∃ e' m, register e s s.last = .ok e' ∧
      e' = { e with
        symbols := e.symbols.add s.name s.base s.size
        maps := e'.maps
        targets := e'.targets } ∧
      s.Draws m ∧ (∀ name, e'.maps[name]? = if s.name = name then some m else e.maps[name]?) ∧
      ∀ a, e'.target? a = (CodeLine.targetAt? s.lines a).or (e.target? a) := by
  obtain ⟨blank, hblank⟩ := CoverageMap.ofRange_ok hle
  obtain ⟨_, hlow, hsize, hbyte⟩ := CoverageMap.ofRange_eq_ok hblank
  obtain ⟨targets, heq, hget⟩ := noteTargets_spec
    { e with
      symbols := e.symbols.add s.name s.base s.size
      maps := (e.maps.insert s.name blank).modify s.name (markMap · s.lines) } s.lines
  refine ⟨_, markMap blank s.lines, Eq.trans ?_ (congrArg Except.ok heq), rfl,
    ⟨?_, ?_, fun i hi => ?_⟩, fun name => ?_, hget⟩
  · simp only [register, createMap, addSymbol, hno, hblank, updateMap, Bool.false_eq_true, if_false]
  · rw [low_markMap, hlow]
  · have := UInt32.le_iff_toNat_le.1 hle
    rw [← UInt32.toNat_inj, CoverageMap.toNat_high, low_markMap, size_markMap, hlow, hsize]
    omega
  · rw [size_markMap] at hi
    rw [byte_markMap hi, hbyte, Flags.empty_union, CoverageMap.address, CoverageMap.address,
      low_markMap]
  · simp only [Std.ExtTreeMap.getElem?_modify, Std.ExtTreeMap.getElem?_insert,
      Std.LawfulEqCmp.compare_eq_iff_eq]
    split <;> simp

theorem built_register (hb : fresh.Built known e) (hnew : s.name ∉ known.map (·.name))
    (hle : s.base ≤ s.last) :
    ∃ e', register e s s.last = .ok e' ∧ fresh.Built (known ++ [s]) e' := by
  have hno : e.maps.contains s.name = false := by
    rw [Bool.eq_false_iff, Ne, hb.contains_iff]
    exact hnew
  obtain ⟨e', m, hok, hframe, hdraws, hmaps, htarget⟩ := register_spec hno hle
  refine ⟨e', hok, ⟨?_, ?_, ?_, ?_, ?_, ?_⟩⟩
  · rw [hframe, hb.frame]
  · rw [List.map_append, List.nodup_append]
    refine ⟨hb.distinct, by simp, ?_⟩
    rintro a ha b hb' rfl
    simp only [List.map_cons, List.map_nil, List.mem_singleton] at hb'
    exact hnew (hb' ▸ ha)
  · rw [hframe, ResolvedSymbol.tableOf_concat, ← hb.table]
  · intro s' hs'
    rw [List.mem_append, List.mem_singleton] at hs'
    rcases hs' with hs' | rfl
    · have hne : s.name ≠ s'.name := fun heq => hnew (heq ▸ List.mem_map_of_mem hs')
      obtain ⟨m', hm', hdraws'⟩ := hb.mapped s' hs'
      exact ⟨m', by rw [hmaps, if_neg hne, hm'], hdraws'⟩
    · exact ⟨m, by rw [hmaps, if_pos rfl], hdraws⟩
  · intro name hc
    obtain ⟨m', hm'⟩ := TreeMap.exists_of_contains hc
    rw [hmaps] at hm'
    split at hm'
    next heq => exact ⟨s, by simp, heq⟩
    next =>
      obtain ⟨s', hs', hname⟩ := hb.named name (TreeMap.contains_of_getElem? hm')
      exact ⟨s', by simp [hs'], hname⟩
  · intro a
    rw [htarget, hb.target, List.flatMap_append, CodeLine.targetAt?_append]
    simp

/-! ## Closing a symbol -/

def keepFirst (known : List ResolvedSymbol) (s : ResolvedSymbol) : List ResolvedSymbol :=
  if s.name ∈ known.map (·.name) then known else known ++ [s]

def settle (known : List ResolvedSymbol) (segments : List Segment) : List ResolvedSymbol :=
  (segments.filterMap Segment.symbol?).foldl keepFirst known

theorem settle_append (known : List ResolvedSymbol) (segments segments' : List Segment) :
    settle known (segments ++ segments') = settle (settle known segments) segments' := by
  simp [settle]

theorem foldl_keepFirst (known symbols : List ResolvedSymbol) :
    symbols.foldl keepFirst known =
      known ++ (symbols.filter fun s => s.name ∉ known.map (·.name)).eraseDupsBy
        fun s s' => s.name == s'.name := by
  induction symbols generalizing known with
  | nil => simp
  | cons s rest ih =>
    rw [List.foldl_cons, ih, keepFirst]
    by_cases h : s.name ∈ known.map (·.name)
    · rw [if_pos h, List.filter_cons_of_neg (by simpa using h)]
    · rw [if_neg h, List.filter_cons_of_pos (by simpa using h), List.eraseDupsBy_cons,
        List.append_assoc, List.singleton_append, List.filter_filter]
      congr 4
      funext s'
      simp [Bool.and_comm]

theorem settle_nil (segments : List Segment) :
    settle [] segments =
      (segments.filterMap Segment.symbol?).eraseDupsBy fun s s' => s.name == s'.name := by
  rw [settle, foldl_keepFirst, List.nil_append, List.filter_eq_self.2 (by simp)]

theorem exists_sublist_foldl_keepFirst (known symbols : List ResolvedSymbol) :
    ∃ kept, kept.Sublist symbols ∧ symbols.foldl keepFirst known = known ++ kept := by
  induction symbols generalizing known with
  | nil => exact ⟨[], .slnil, by simp⟩
  | cons s rest ih =>
    obtain ⟨kept, hsub, heq⟩ := ih (keepFirst known s)
    rw [List.foldl_cons, heq]
    unfold keepFirst
    split
    next => exact ⟨kept, hsub.cons s, rfl⟩
    next => exact ⟨s :: kept, hsub.cons_cons s, by simp⟩

theorem find?_foldl_keepFirst (known symbols : List ResolvedSymbol) (name : String) :
    (symbols.foldl keepFirst known).find? (·.name == name) =
      (known.find? (·.name == name)).or (symbols.find? (·.name == name)) := by
  induction symbols generalizing known with
  | nil => simp
  | cons s rest ih =>
    rw [List.foldl_cons, ih, keepFirst, List.find?_cons]
    by_cases hs : s.name = name
    · subst hs
      simp only [beq_self_eq_true]
      split
      next hmem =>
        obtain ⟨s', hs', hname⟩ := List.mem_map.1 hmem
        have hfound : (known.find? (·.name == s.name)).isSome := by
          rw [List.find?_isSome]
          exact ⟨s', hs', by simp [hname]⟩
        obtain ⟨s'', hs''⟩ := Option.isSome_iff_exists.1 hfound
        simp [hs'']
      next => simp [List.find?_append]
    · have hne : (s.name == name) = false := by simpa using hs
      simp only [hne]
      split
      next => rfl
      next => simp [List.find?_append, hne]

theorem contributions_sublist (t : Target) (bias : Address) (wanted : String → Bool)
    (lines : List String) :
    (contributions t bias wanted lines).Sublist
      (((segments t bias lines).filter (wanted ·.label)).filterMap Segment.symbol?) := by
  rw [contributions, ← settle_nil, settle]
  obtain ⟨kept, hsub, heq⟩ := exists_sublist_foldl_keepFirst []
    (((segments t bias lines).filter (wanted ·.label)).filterMap Segment.symbol?)
  rw [heq]
  exact hsub

theorem exists_segment_of_mem {t : Target} {bias : Address} {wanted : String → Bool}
    {lines : List String} (h : s ∈ contributions t bias wanted lines) :
    ∃ g ∈ segments t bias lines, wanted g.label = true ∧ g.symbol? = some s := by
  obtain ⟨g, hg, hs⟩ := List.mem_filterMap.1 ((contributions_sublist _ _ _ _).mem h)
  obtain ⟨hmem, hwanted⟩ := List.mem_filter.1 hg
  exact ⟨g, hmem, hwanted, hs⟩

theorem Segment.of_symbol? {g : Segment} (h : g.symbol? = some s) :
    s.name = g.label ∧ s.base = g.start ∧ Padding.bytes g.body ≤ g.last ∧
      s.last = g.last - Padding.bytes g.body ∧ s.base ≤ s.last ∧
      s.size = s.last - s.base + 1 := by
  simp only [Segment.symbol?, Option.ite_none_left_eq_some, Option.some.injEq, not_or,
    UInt32.not_lt] at h
  obtain ⟨⟨hpadding, hle⟩, rfl⟩ := h
  have hlast : g.start + (g.last - Padding.bytes g.body - g.start + 1 - 1) =
      g.last - Padding.bytes g.body := by
    rw [UInt32.add_sub_cancel, Address.base_add_sub]
  refine ⟨rfl, rfl, hpadding, hlast, ?_, ?_⟩
  · rw [ResolvedSymbol.last, hlast]
    exact hle
  · rw [ResolvedSymbol.last, hlast]

theorem Segment.exists_symbol? {g : Segment}
    (h : g.start.toNat + (Padding.bytes g.body).toNat ≤ g.last.toNat) :
    ∃ s, g.symbol? = some s ∧ s.last.toNat + (Padding.bytes g.body).toNat = g.last.toNat := by
  have hpadding : Padding.bytes g.body ≤ g.last := by
    rw [UInt32.le_iff_toNat_le]
    omega
  have hcode : ¬ (g.last < Padding.bytes g.body ∨ g.last - Padding.bytes g.body < g.start) := by
    rw [not_or, UInt32.not_lt, UInt32.not_lt]
    refine ⟨hpadding, UInt32.le_iff_toNat_le.2 ?_⟩
    rw [UInt32.toNat_sub_of_le _ _ hpadding]
    omega
  obtain ⟨s, hs⟩ : ∃ s, g.symbol? = some s := by
    rw [Segment.symbol?, if_neg hcode]
    exact ⟨_, rfl⟩
  refine ⟨s, hs, ?_⟩
  rw [(Segment.of_symbol? hs).2.2.2.1, UInt32.toNat_sub_of_le _ _ hpadding]
  omega

theorem find?_contributions {t : Target} {bias : Address} {wanted : String → Bool}
    {lines : List String} {name : String} (hname : wanted name = true) :
    (contributions t bias wanted lines).find? (·.name == name) =
      ((segments t bias lines).filterMap Segment.symbol?).find? (·.name == name) := by
  rw [contributions, ← settle_nil, settle, find?_foldl_keepFirst, List.find?_nil, Option.none_or]
  induction segments t bias lines with
  | nil => rfl
  | cons g rest ih =>
    rw [List.filter_cons, List.filterMap_cons]
    cases hs : g.symbol? with
    | none =>
      rw [← ih]
      split
      next => rw [List.filterMap_cons, hs]
      next => rfl
    | some s =>
      rw [List.find?_cons, ← ih]
      split
      next => rw [List.filterMap_cons, hs, List.find?_cons]
      next hwanted =>
        -- The segment is not wanted, so it has another label.
        have hne : (s.name == name) = false := by
          rw [beq_eq_false_iff_ne, (Segment.of_symbol? hs).1]
          rintro rfl
          exact hwanted hname
        rw [hne]

variable {r : Reader}

theorem close_spec (hb : fresh.Built r.resolved.toList r.executable) (o : OpenSymbol)
    (last : Address) :
    ∃ r', r.close o last = .ok r' ∧ r'.current = none ∧
      fresh.Built r'.resolved.toList r'.executable ∧
      r'.resolved.toList = settle r.resolved.toList
        [{ label := o.name, start := o.start, body := o.lines.reverse, last }] := by
  generalize hg : ({ label := o.name, start := o.start, body := o.lines.reverse, last } : Segment) = g
  unfold Reader.close
  by_cases hpad : last < Padding.bytes o.lines.reverse ∨ last - Padding.bytes o.lines.reverse < o.start
  · have hnone : g.symbol? = none := by
      rw [← hg, Segment.symbol?, if_pos hpad]
    exact ⟨_, if_pos hpad, rfl, hb, by simp [settle, hnone, Reader.warn]⟩
  · obtain ⟨s, hs⟩ : ∃ s, g.symbol? = some s := by
      rw [← hg, Segment.symbol?, if_neg hpad]
      exact ⟨_, rfl⟩
    obtain ⟨_, _, _, hlast, hle, _⟩ := Segment.of_symbol? hs
    have hsymbol := hs
    rw [← hg, Segment.symbol?, if_neg hpad, Option.some.injEq] at hsymbol
    have hname : s.name = o.name := by rw [← hsymbol]
    have hsettle : settle r.resolved.toList [g] = keepFirst r.resolved.toList s := by
      simp [settle, hs]
    -- Of several symbols of one name the first is kept.
    by_cases hc : r.executable.maps.contains o.name
    · have hin := hb.contains_iff.1 hc
      refine ⟨_, (if_neg hpad).trans (if_pos hc), rfl, hb, ?_⟩
      rw [hsettle, keepFirst, if_pos (hname ▸ hin)]
      rfl
    · have hout : s.name ∉ r.resolved.toList.map (·.name) := fun hin =>
        hc (hb.contains_iff.2 (hname ▸ hin))
      obtain ⟨e', hok, hb'⟩ := built_register hb hout hle
      have hregister : register r.executable s (last - Padding.bytes o.lines.reverse) = .ok e' := by
        rw [← hok, hlast, ← hg]
      refine ⟨{ r with current := none, executable := e', resolved := r.resolved.push s },
        ?_, rfl, by simpa using hb', ?_⟩
      · simp only [if_neg hpad, if_neg hc, hsymbol, hregister]
      · rw [hsettle, keepFirst, if_neg hout]
        simp

/-! ## Reading -/

/-- The reader has built what it resolved, and knows the last instruction of the open symbol. -/
structure Reader.Reads (fresh : Executable) (r : Reader) : Prop where
  built : fresh.Built r.resolved.toList r.executable
  tracked : ∀ o, r.current = some o → o.last = (o.lines.filterMap (·.address)).head?

section

variable (t : Target) (bias : Address)

def OpenSymbol.segment (o : OpenSymbol) (rest : List String) : Segment :=
  let body := o.lines.reverse ++ bodyOf t bias rest
  { label := o.name, start := o.start, body, last := lastOf t bias o.start body rest }

/-- The segments that a reader still has to settle. -/
def pending (wanted : String → Bool) (r : Reader) (lines : List String) : List Segment :=
  r.current.toList.map (·.segment t bias lines) ++
    (segments t bias lines).filter (wanted ·.label)

variable {t} {line : String} (rest : List String) {offset : UInt32} {label : String}

theorem body_of_header (h : LineKind.ofLine t line.toList = .header offset label) :
    bodyOf t bias (line :: rest) = [] ∧ stop? t bias (line :: rest) = some (bias + offset) := by
  simp [bodyOf, stop?, upToHeader, headerAt?, h]

theorem body_of_sentinel (h : LineKind.ofLine t line.toList = .sentinel offset) :
    bodyOf t bias (line :: rest) = [] ∧ stop? t bias (line :: rest) = some (bias + offset) := by
  simp [bodyOf, stop?, upToHeader, headerAt?, sentinelAt?, h]

variable {bias}

theorem body_of_code (hheader : headerAt? t bias line = none)
    (hsentinel : sentinelAt? t bias line = none) :
    bodyOf t bias (line :: rest) = bodyLine t bias line :: bodyOf t bias rest ∧
      stop? t bias (line :: rest) = stop? t bias rest := by
  simp [bodyOf, stop?, upToHeader, hheader, hsentinel]

theorem segments_cons_of_none (hheader : headerAt? t bias line = none) :
    segments t bias (line :: rest) = segments t bias rest := by
  rw [segments]
  cases hk : LineKind.ofLine t line.toList with
  | header offset label => simp [headerAt?, hk] at hheader
  | sentinel | instruction | text => rfl

theorem pending_header (wanted : String → Bool)
    (h : LineKind.ofLine t line.toList = .header offset label) :
    pending t bias wanted r (line :: rest) =
      (r.current.toList.map fun o => {
        label := o.name
        start := o.start
        body := o.lines.reverse
        last := bias + offset - 1 }) ++
      (segmentOf t bias offset label line rest :: segments t bias rest).filter (wanted ·.label) := by
  obtain ⟨hbody, hstop⟩ := body_of_header bias rest h
  simp [pending, segments, h, OpenSymbol.segment, lastOf, hbody, hstop]

theorem pending_sentinel (wanted : String → Bool)
    (h : LineKind.ofLine t line.toList = .sentinel offset) :
    pending t bias wanted r (line :: rest) =
      (r.current.toList.map fun o => {
        label := o.name
        start := o.start
        body := o.lines.reverse
        last := bias + offset - 1 }) ++
      (segments t bias rest).filter (wanted ·.label) := by
  obtain ⟨hbody, hstop⟩ := body_of_sentinel bias rest h
  simp [pending, segments, h, OpenSymbol.segment, lastOf, hbody, hstop]

theorem pending_push (wanted : String → Bool) (hheader : headerAt? t bias line = none)
    (hsentinel : sentinelAt? t bias line = none) :
    pending t bias wanted (r.push (bodyLine t bias line)) rest =
      pending t bias wanted r (line :: rest) := by
  obtain ⟨hbody, hstop⟩ := body_of_code rest hheader hsentinel
  unfold pending Reader.push
  rw [segments_cons_of_none rest hheader]
  cases r.current with
  | none => rfl
  | some o =>
    have hrev : (bodyLine t bias line :: o.lines).reverse ++ bodyOf t bias rest =
        o.lines.reverse ++ bodyOf t bias (line :: rest) := by
      simp [hbody]
    simp only [Option.map_some, Option.toList_some, List.map_cons, List.map_nil,
      OpenSymbol.segment, lastOf, hrev, hstop]

end

theorem closeCurrent_spec (hr : r.Reads fresh) (last : Address) :
    ∃ r', r.closeCurrent last = .ok r' ∧ r'.current = none ∧ r'.Reads fresh ∧
      r'.resolved.toList = settle r.resolved.toList
        (r.current.toList.map fun o =>
          { label := o.name, start := o.start, body := o.lines.reverse, last }) := by
  unfold Reader.closeCurrent
  cases hc : r.current with
  | none => exact ⟨r, rfl, hc, hr, rfl⟩
  | some o =>
    obtain ⟨r', hok, hnone, hb, hsettle⟩ := close_spec hr.built o last
    exact ⟨r', hok, hnone, ⟨hb, by simp [hnone]⟩, hsettle⟩

theorem reads_push (hr : r.Reads fresh) (l : CodeLine) : (r.push l).Reads fresh := by
  refine ⟨hr.built, fun o ho => ?_⟩
  obtain ⟨o', ho', rfl⟩ := Option.map_eq_some_iff.1 ho
  rw [List.filterMap_cons]
  cases hl : l.address with
  | none => simpa using hr.tracked o' ho'
  | some a => simp

section

variable (t : Target) (wanted : String → Bool)

/-- One line is read without failure, and leaves the same symbols to come. -/
theorem step_spec (hr : r.Reads fresh) (line : String) (rest : List String) :
    ∃ r', r.step t wanted line = .ok r' ∧ r'.Reads fresh ∧
      settle r'.resolved.toList (pending t fresh.loadAddress wanted r' rest) =
        settle r.resolved.toList (pending t fresh.loadAddress wanted r (line :: rest)) := by
  have hbias : r.executable.loadAddress = fresh.loadAddress := by rw [hr.built.frame]
  unfold Reader.step
  rw [hbias]
  cases hk : LineKind.ofLine t line.toList with
  | header offset label =>
    obtain ⟨r', hok, hnone, hr', hsettle⟩ :=
      closeCurrent_spec hr (fresh.loadAddress + offset - 1)
    simp only [hok]
    rw [pending_header rest wanted hk, settle_append, ← hsettle]
    by_cases hw : wanted label
    · refine ⟨_, if_pos hw, ⟨hr'.built, ?_⟩, ?_⟩
      · rintro o ⟨⟩
        rfl
      · rw [List.filter_cons_of_pos (by exact hw)]
        rfl
    · refine ⟨_, if_neg hw, hr', ?_⟩
      rw [List.filter_cons_of_neg (by exact hw)]
      simp [pending, hnone]
  | sentinel offset =>
    obtain ⟨r', hok, hnone, hr', hsettle⟩ :=
      closeCurrent_spec hr (fresh.loadAddress + offset - 1)
    refine ⟨r', hok, hr', ?_⟩
    rw [pending_sentinel rest wanted hk, settle_append, ← hsettle]
    simp [pending, hnone]
  | instruction offset =>
    refine ⟨_, rfl, reads_push hr _, ?_⟩
    have hline : codeLine t fresh.loadAddress (fresh.loadAddress + offset) line =
        bodyLine t fresh.loadAddress line := by
      simp [bodyLine, hk]
    rw [hline, pending_push rest wanted (by simp [headerAt?, hk]) (by simp [sentinelAt?, hk])]
    rfl
  | text =>
    refine ⟨_, rfl, reads_push hr _, ?_⟩
    have hline : ({ text := line } : CodeLine) = bodyLine t fresh.loadAddress line := by
      simp [bodyLine, hk]
    rw [hline, pending_push rest wanted (by simp [headerAt?, hk]) (by simp [sentinelAt?, hk])]
    rfl

/-- Reading all lines and ending the listing settles all segments that were to come. -/
theorem run_finish_spec (hr : r.Reads fresh) (lines : List String) :
    ∃ r' r'', r.run t wanted lines = .ok r' ∧ r'.finish = .ok r'' ∧ r''.Reads fresh ∧
      r''.resolved.toList =
        settle r.resolved.toList (pending t fresh.loadAddress wanted r lines) := by
  induction lines generalizing r with
  | nil =>
    refine ⟨r, ?_⟩
    unfold Reader.finish
    cases hc : r.current with
    | none => exact ⟨r, rfl, rfl, hr, by simp [pending, hc, segments, settle]⟩
    | some o =>
      obtain ⟨r', hok, hnone, hb, hsettle⟩ :=
        close_spec (r := r.warn (.openEnded o.name)) hr.built o (o.last.getD o.start)
      refine ⟨r', rfl, hok, ⟨hb, by simp [hnone]⟩, hsettle.trans ?_⟩
      have hlast : ((o.lines.reverse.filterMap (·.address)).getLast?).getD o.start =
          o.last.getD o.start := by
        rw [List.filterMap_reverse, List.getLast?_reverse, hr.tracked o hc]
      have hpending : pending t fresh.loadAddress wanted r [] =
          [{ label := o.name
             start := o.start
             body := o.lines.reverse
             last := o.last.getD o.start }] := by
        simp only [pending, hc, segments, OpenSymbol.segment, bodyOf, upToHeader, lastOf, stop?,
          List.takeWhile_nil, List.map_nil, List.append_nil, List.findSome?_nil, Option.or_none,
          Option.map_none, Option.getD_none, hlast, Option.toList_some, List.map_cons,
          List.filter_nil]
      rw [hpending]
      rfl
  | cons line rest ih =>
    obtain ⟨r₁, hstep, hr₁, hsettle⟩ := step_spec t wanted hr line rest
    obtain ⟨r', r'', hrun, hfinish, hr'', hresolved⟩ := ih hr₁
    refine ⟨r', r'', ?_, hfinish, hr'', hresolved.trans hsettle⟩
    rw [Reader.run, List.foldlM_cons, hstep]
    exact hrun

theorem read_spec {e : Executable} (he : e.Fresh) (lines : List String) :
    (read t wanted e { lines }).result = .ok (contributions t e.loadAddress wanted lines) ∧
      e.Built (contributions t e.loadAddress wanted lines) (read t wanted e { lines }).state := by
  have hr : Reader.Reads e { executable := e } := ⟨he.built, by simp⟩
  obtain ⟨r', r'', hrun, hfinish, hr'', hresolved⟩ :=
    run_finish_spec t wanted hr lines
  have hcontributions : r''.resolved.toList = contributions t e.loadAddress wanted lines := by
    rw [hresolved, contributions]
    exact settle_nil _
  have hread : read t wanted e { lines } =
      { state := r''.executable, result := .ok r''.resolved.toList, warnings := r''.warnings } := by
    simp [read, hrun, hfinish]
  rw [hread, ← hcontributions]
  exact ⟨rfl, hr''.built⟩

/-- Reading line by line finds the symbols of the segments in order. The executable gets their
table, one map for each of them and the targets of their branches, and changes in nothing else. -/
theorem read_segmentation {e : Executable} (he : e.Fresh) (lines : List String) :
    let found := contributions t e.loadAddress wanted lines
    let after := (read t wanted e { lines }).state
    (read t wanted e { lines }).result = .ok found ∧
      after = { e with
        symbols := ResolvedSymbol.tableOf found
        maps := after.maps
        targets := after.targets } ∧
      (∀ s ∈ found, ∃ m, s.Draws m) ∧
      (∀ name m, after.maps[name]? = some m ↔ ∃ s ∈ found, s.name = name ∧ s.Draws m) ∧
      ∀ a, after.target? a = CodeLine.targetAt? (found.flatMap (·.lines)) a := by
  intro found after
  obtain ⟨hresult, hb⟩ := read_spec t wanted he lines
  refine ⟨hresult, ?_, fun s hs => ?_, fun name m => hb.getElem?_maps_iff, hb.target⟩
  · rw [← hb.table]
    exact hb.frame
  · obtain ⟨m, _, hdraws⟩ := hb.mapped s hs
    exact ⟨m, hdraws⟩

end

/-! ## A listing -/

def i386 : Target := .ofArchitecture "i386-elf" .i386

def dispatching : List String :=
  ["100 <f>:", "100:\tje 104 <f+4>", "104:\tret", "105:\tcall 210 <h+0x10>", "10a:\tinc %eax",
   "110 <f>:", "110:\tret", "120 <g>:", "120:\tret", "121:\tnop"]

theorem read_segmentation_dispatching :
    let e : Executable := { id := 0, file := "a.exe" }
    (read i386 (["f", "g"].contains ·) e { lines := dispatching }).result =
        .ok [
          { name := "f", base := 0x100, size := 5
            lines := [
              { text := "100 <f>:" },
              { text := "100:\tje 104 <f+4>", address := some 0x100
                branch := some { target := some 0x104 } },
              { text := "104:\tret", address := some 0x104 }] },
          { name := "g", base := 0x120, size := 1
            lines := [
              { text := "120 <g>:" }, { text := "120:\tret", address := some 0x120 }] }] ∧
      ∀ name, (read i386 (["f", "g"].contains ·) e { lines := dispatching }).state.maps.contains name →
        name = "f" ∨ name = "g" := by
  intro e
  obtain ⟨hresult, _, _, hmaps, _⟩ :=
    read_segmentation i386 (["f", "g"].contains ·) (e := e) ⟨rfl, rfl, rfl⟩ dispatching
  refine ⟨hresult.trans (congrArg Except.ok (by decide +kernel)), fun name hname => ?_⟩
  obtain ⟨m, hm⟩ := TreeMap.exists_of_contains hname
  obtain ⟨s, hs, rfl, _⟩ := (hmaps name m).1 hm
  have hnames : ∀ s ∈ contributions i386 0 (["f", "g"].contains ·) dispatching,
      s.name = "f" ∨ s.name = "g" := by
    decide +kernel
  exact hnames s hs

end Listing

end TraceCoverage

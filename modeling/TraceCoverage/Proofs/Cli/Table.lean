import TraceCoverage.Cli.Table
import TraceCoverage.Proofs.Text.Scanning

/-!
# Rectangular tables

The width of a column is taken from the bytes of its header and from the characters of its cells,
and three kinds of padding fill it. Every line of a table still has its bars in the same places, and
each cell stands between them as a whole.
-/

namespace TraceCoverage.Table

open Text

variable {t : Table} {i w : Nat} {ws : List Nat} {row cells : List String} {header cell s : String}

/-- What can be shown as a table: there are columns, each row fills them, and no text breaks the
line. -/
structure Printable (t : Table) : Prop where
  headers_ne : t.headers ≠ []
  header_unbroken : ∀ header ∈ t.headers, '\n' ∉ header.toList
  cell_unbroken : ∀ row ∈ t.rows, ∀ cell ∈ row, '\n' ∉ cell.toList
  row_full : ∀ row ∈ t.rows, t.headers.length ≤ row.length

/-- Where the bar before a column stands, or the last bar. -/
def bar (t : Table) (i : Nat) : Nat := (t.widths.take i).foldl (· + · + 3) 0

def field (t : Table) (line : List Char) (i : Nat) : List Char :=
  (line.drop (t.bar i + 1)).take (t.bar (i + 1) - (t.bar i + 1))

/-- The field of a cell: a space at each edge, and the free space opposite to the alignment. -/
inductive Shows (cell : List Char) : Alignment → List Char → Prop where
  | left (free : Nat) : Shows cell .left (' ' :: (cell ++ List.replicate free ' ') ++ [' '])
  | right (free : Nat) : Shows cell .right (' ' :: (List.replicate free ' ' ++ cell) ++ [' '])

/-- The field of a header, which stands in the middle or one space before it. -/
inductive Centers (header : List Char) : List Char → Prop where
  | mk (free free' : Nat) (h : free ≤ free') (h' : free' ≤ free + 1) : Centers header
    (' ' :: (List.replicate free ' ' ++ header ++ List.replicate free' ' ') ++ [' '])

/-! ## Widths -/

theorem length_le_utf8ByteSize (s : String) : s.length ≤ s.utf8ByteSize := by
  rw [← String.ofList_toList (s := s)]
  generalize s.toList = cs
  induction cs with
  | nil => exact Nat.zero_le _
  | cons c cs ih =>
    have hpos := c.utf8Size_pos
    rw [String.ofList_cons, String.length_append, String.length_singleton,
      String.utf8ByteSize_append, String.utf8ByteSize_singleton]
    omega

theorem getElem?_widen (ws : List Nat) (row : List String) (i : Nat) :
    (widen ws row)[i]? = ws[i]?.map fun w => max w ((row[i]?.map String.length).getD 0) := by
  induction ws, row using widen.induct generalizing i with
  | case1 w ws cell cells ih => cases i <;> simp [widen, ih]
  | case2 ws row h =>
    rw [widen.eq_2 ws row h]
    cases row with
    | nil => simp
    | cons cell cells =>
      cases ws with
      | nil => simp
      | cons w ws => exact absurd rfl (h w ws cell cells rfl)

theorem length_widen (ws : List Nat) (row : List String) : (widen ws row).length = ws.length := by
  induction ws, row using widen.induct with
  | case1 w ws cell cells ih => simp [widen, ih]
  | case2 ws row h => rw [widen.eq_2 ws row h]

theorem length_foldl_widen (rows : List (List String)) (ws : List Nat) :
    (rows.foldl widen ws).length = ws.length := by
  induction rows generalizing ws with
  | nil => rfl
  | cons row rows ih => rw [List.foldl_cons, ih, length_widen]

theorem exists_le_of_foldl_widen {rows : List (List String)}
    (hw : (rows.foldl widen ws)[i]? = some w) : ∃ v, ws[i]? = some v ∧ v ≤ w ∧
      ∀ row ∈ rows, ∀ cell, row[i]? = some cell → cell.length ≤ w := by
  induction rows generalizing ws with
  | nil => exact ⟨w, hw, le_rfl, fun row hrow => absurd hrow List.not_mem_nil⟩
  | cons row rows ih =>
    obtain ⟨_, hstep, hle, hrows⟩ := ih hw
    rw [getElem?_widen, Option.map_eq_some_iff] at hstep
    obtain ⟨v, hv, rfl⟩ := hstep
    refine ⟨v, hv, le_trans (le_max_left _ _) hle, List.forall_mem_cons.2 ⟨?_, hrows⟩⟩
    intro cell hcell
    rw [hcell] at hle
    exact le_trans (le_max_right _ _) hle

theorem length_widths (t : Table) : t.widths.length = t.headers.length := by
  rw [widths, length_foldl_widen, List.length_map]

theorem length_header_le (hheader : t.headers[i]? = some header) (hw : t.widths[i]? = some w) :
    header.length ≤ w := by
  obtain ⟨v, hv, hle, -⟩ := exists_le_of_foldl_widen hw
  rw [List.getElem?_map, hheader, Option.map_some, Option.some.injEq] at hv
  exact le_trans (length_le_utf8ByteSize header) (hv ▸ hle)

theorem length_cell_le (hrow : row ∈ t.rows) (hcell : row[i]? = some cell)
    (hw : t.widths[i]? = some w) : cell.length ≤ w := by
  obtain ⟨_, -, -, hrows⟩ := exists_le_of_foldl_widen hw
  exact hrows row hrow cell hcell

/-! ## Padding -/

theorem length_padRight (h : s.length ≤ w) : (padRight w s).length = w := by
  rw [padRight, spaces, String.length_append, String.length_ofList, List.length_replicate]
  omega

theorem length_padLeft (h : s.length ≤ w) : (padLeft w s).length = w := by
  rw [padLeft, spaces, String.length_append, String.length_ofList, List.length_replicate]
  omega

theorem length_center (h : s.length ≤ w) : (center w s).length = w := by
  simp only [center, spaces, String.length_append, String.length_ofList, List.length_replicate]
  omega

def edged (s : String) : String := " " ++ s ++ " "

theorem toList_edged (s : String) : (edged s).toList = ' ' :: s.toList ++ [' '] := by
  simp [edged]

theorem length_edged (s : String) : (edged s).length = s.length + 2 := by
  have hspace : " ".length = 1 := rfl
  rw [edged, String.length_append, String.length_append, hspace]
  omega

/-! ## Cells -/

def headerText (header : String) (w : Nat) : String := edged (center w header)

def ruleText (w : Nat) : Alignment → String
  | .left => ":" ++ String.ofList (List.replicate (w + 1) '-')
  | .right => String.ofList (List.replicate (w + 1) '-') ++ ":"

def cellText (cell : String) (w : Nat) : Alignment → String
  | .left => edged (padRight w cell)
  | .right => edged (padLeft w cell)

theorem length_headerText (h : header.length ≤ w) : (headerText header w).length = w + 2 := by
  rw [headerText, length_edged, length_center h]

theorem length_ruleText (w : Nat) (a : Alignment) : (ruleText w a).length = w + 2 := by
  cases a <;> simp [ruleText, ← String.length_toList]

theorem length_cellText (h : cell.length ≤ w) (a : Alignment) :
    (cellText cell w a).length = w + 2 := by
  cases a with
  | left => rw [cellText, length_edged, length_padRight h]
  | right => rw [cellText, length_edged, length_padLeft h]

theorem centers_headerText (header : String) (w : Nat) :
    Centers header.toList (headerText header w).toList := by
  simp only [headerText, toList_edged, center, spaces, String.toList_append, String.toList_ofList]
  exact .mk _ _ (by omega) (by omega)

theorem shows_cellText (cell : String) (w : Nat) (a : Alignment) :
    Shows cell.toList a (cellText cell w a).toList := by
  cases a with
  | left =>
    rw [cellText, toList_edged, padRight, spaces, String.toList_append, String.toList_ofList]
    exact .left _
  | right =>
    rw [cellText, toList_edged, padLeft, spaces, String.toList_append, String.toList_ofList]
    exact .right _

theorem not_mem_edged (h : '\n' ∉ s.toList) : '\n' ∉ (edged s).toList := by
  simp [toList_edged, h]

theorem not_mem_headerText (h : '\n' ∉ header.toList) (w : Nat) :
    '\n' ∉ (headerText header w).toList :=
  not_mem_edged (by simp [center, spaces, h])

theorem not_mem_ruleText (w : Nat) (a : Alignment) : '\n' ∉ (ruleText w a).toList := by
  cases a <;> simp [ruleText]

theorem not_mem_cellText (h : '\n' ∉ cell.toList) (w : Nat) (a : Alignment) :
    '\n' ∉ (cellText cell w a).toList := by
  cases a with
  | left => exact not_mem_edged (by simp [padRight, spaces, h])
  | right => exact not_mem_edged (by simp [padLeft, spaces, h])

/-! ## The cells of each line -/

def headerCells (t : Table) : List String := t.headers.zipWith headerText t.widths

def ruleCells (t : Table) : List String := t.columns.map fun c => ruleText c.1 c.2

def rowCells (t : Table) (row : List String) : List String :=
  row.zipWith (fun cell c => cellText cell c.1 c.2) t.columns

def cellLines (t : Table) : List (List String) :=
  t.headerCells :: t.ruleCells :: t.rows.map t.rowCells

theorem headerLine_eq (t : Table) : t.headerLine = line t.headerCells := rfl

theorem ruleLine_eq (t : Table) : t.ruleLine = line t.ruleCells := rfl

theorem rowLine_eq (t : Table) (row : List String) : t.rowLine row = line (t.rowCells row) := rfl

theorem getElem?_columns (t : Table) (i : Nat) :
    t.columns[i]? = t.widths[i]?.map fun w => (w, t.alignment i) := by
  rw [columns, List.getElem?_map, List.getElem?_zipIdx, Option.map_map, Nat.zero_add]
  rfl

theorem getElem?_headerCells_eq_some_iff : t.headerCells[i]? = some s ↔
    ∃ header w, t.headers[i]? = some header ∧ t.widths[i]? = some w ∧ headerText header w = s :=
  List.getElem?_zipWith_eq_some

theorem getElem?_ruleCells_eq_some_iff : t.ruleCells[i]? = some s ↔
    ∃ w, t.widths[i]? = some w ∧ ruleText w (t.alignment i) = s := by
  rw [ruleCells, List.getElem?_map, getElem?_columns, Option.map_map, Option.map_eq_some_iff]
  rfl

theorem getElem?_rowCells_eq_some_iff : (t.rowCells row)[i]? = some s ↔
    ∃ cell w, row[i]? = some cell ∧ t.widths[i]? = some w ∧
      cellText cell w (t.alignment i) = s := by
  rw [rowCells, List.getElem?_zipWith_eq_some, getElem?_columns]
  simp only [Option.map_eq_some_iff]
  constructor
  · rintro ⟨cell, _, hcell, ⟨w, hw, rfl⟩, hs⟩
    exact ⟨cell, w, hcell, hw, hs⟩
  · rintro ⟨cell, w, hcell, hw, hs⟩
    exact ⟨cell, _, hcell, ⟨w, hw, rfl⟩, hs⟩

structure Fills (t : Table) (cells : List String) : Prop where
  length_eq : cells.length = t.headers.length
  width_eq : ∀ (i : Nat) (s : String), cells[i]? = some s →
    ∃ w, t.widths[i]? = some w ∧ s.length = w + 2
  unbroken : ∀ s ∈ cells, '\n' ∉ s.toList

theorem Printable.fills_headerCells (h : t.Printable) : t.Fills t.headerCells where
  length_eq := by rw [headerCells, List.length_zipWith, length_widths, Nat.min_self]
  width_eq i s hs := by
    obtain ⟨header, w, hheader, hw, rfl⟩ := getElem?_headerCells_eq_some_iff.1 hs
    exact ⟨w, hw, length_headerText (length_header_le hheader hw)⟩
  unbroken s hs := by
    obtain ⟨i, hi⟩ := List.getElem?_of_mem hs
    obtain ⟨header, w, hheader, -, rfl⟩ := getElem?_headerCells_eq_some_iff.1 hi
    exact not_mem_headerText (h.header_unbroken header (List.mem_of_getElem? hheader)) w

theorem length_columns (t : Table) : t.columns.length = t.headers.length := by
  rw [columns, List.length_map, List.length_zipIdx, length_widths]

theorem fills_ruleCells (t : Table) : t.Fills t.ruleCells where
  length_eq := by rw [ruleCells, List.length_map, length_columns]
  width_eq i s hs := by
    obtain ⟨w, hw, rfl⟩ := getElem?_ruleCells_eq_some_iff.1 hs
    exact ⟨w, hw, length_ruleText w _⟩
  unbroken s hs := by
    obtain ⟨i, hi⟩ := List.getElem?_of_mem hs
    obtain ⟨w, -, rfl⟩ := getElem?_ruleCells_eq_some_iff.1 hi
    exact not_mem_ruleText w _

theorem Printable.fills_rowCells (h : t.Printable) (hrow : row ∈ t.rows) :
    t.Fills (t.rowCells row) where
  length_eq := by
    rw [rowCells, List.length_zipWith, length_columns, Nat.min_eq_right (h.row_full row hrow)]
  width_eq i s hs := by
    obtain ⟨cell, w, hcell, hw, rfl⟩ := getElem?_rowCells_eq_some_iff.1 hs
    exact ⟨w, hw, length_cellText (length_cell_le hrow hcell hw) _⟩
  unbroken s hs := by
    obtain ⟨i, hi⟩ := List.getElem?_of_mem hs
    obtain ⟨cell, w, hcell, -, rfl⟩ := getElem?_rowCells_eq_some_iff.1 hi
    exact not_mem_cellText (h.cell_unbroken row hrow cell (List.mem_of_getElem? hcell)) w _

theorem Printable.fills (h : t.Printable) : ∀ cells ∈ t.cellLines, t.Fills cells := by
  rw [cellLines, List.forall_mem_cons, List.forall_mem_cons, List.forall_mem_map]
  exact ⟨h.fills_headerCells, fills_ruleCells t, fun row hrow => h.fills_rowCells hrow⟩

/-! ## Lines -/

def barred (cells : List String) : List Char := cells.flatMap fun cell => cell.toList ++ ['|']

def ruled (cells : List String) : List Char := '|' :: barred cells

theorem barred_cons (cell : String) (cells : List String) :
    barred (cell :: cells) = cell.toList ++ '|' :: barred cells := by
  simp [barred]

theorem ruled_append (cells cells' : List String) :
    ruled (cells ++ cells') = ruled cells ++ barred cells' := by
  simp [ruled, barred]

theorem toList_line (cells : List String) : (line cells).toList = ruled cells ++ ['\n'] := by
  simp [line, ruled, barred, List.flatMap_map]

theorem getLast?_ruled (cells : List String) : (ruled cells).getLast? = some '|' := by
  rcases List.eq_nil_or_concat cells with rfl | ⟨cells, cell, rfl⟩
  · rfl
  · simp [ruled_append, barred]

theorem bar_succ (hw : t.widths[i]? = some w) : t.bar (i + 1) = t.bar i + w + 3 := by
  rw [bar, List.take_add_one, hw, List.foldl_append]
  rfl

namespace Fills

variable (h : t.Fills cells)

include h

theorem length_ruled_take (hi : i ≤ cells.length) :
    (ruled (cells.take i)).length = t.bar i + 1 := by
  induction i with
  | zero => rfl
  | succ i ih =>
    have hcell := List.getElem?_eq_getElem hi
    obtain ⟨w, hw, hlength⟩ := h.width_eq i _ hcell
    have hbarred : (barred [cells[i]]).length = w + 3 := by
      rw [barred_cons, List.length_append, String.length_toList, hlength]
      rfl
    rw [List.take_add_one, hcell, Option.toList_some, ruled_append, List.length_append,
      ih (Nat.le_of_lt hi), hbarred, bar_succ hw]
    omega

theorem length_ruled : (ruled cells).length = t.bar t.headers.length + 1 := by
  rw [← h.length_eq, ← h.length_ruled_take le_rfl, List.take_length]

theorem getElem?_ruled_bar (hi : i ≤ t.headers.length) : (ruled cells)[t.bar i]? = some '|' := by
  have hlength := h.length_ruled_take (h.length_eq ▸ hi)
  rw [← List.take_append_drop i cells, ruled_append, List.getElem?_append_left (by omega),
    ← getLast?_ruled (cells.take i), List.getLast?_eq_getElem?, hlength, Nat.add_sub_cancel]

theorem field_ruled (hcell : cells[i]? = some s) : t.field (ruled cells) i = s.toList := by
  obtain ⟨hi, rfl⟩ := List.getElem?_eq_some_iff.1 hcell
  obtain ⟨w, hw, hlength⟩ := h.width_eq i _ hcell
  have hwidth : t.bar (i + 1) - (t.bar i + 1) = cells[i].toList.length := by
    rw [bar_succ hw, String.length_toList, hlength]
    omega
  have hruled := ruled_append (cells.take i) (cells.drop i)
  rw [List.take_append_drop, List.drop_eq_getElem_cons hi, barred_cons] at hruled
  rw [field, hwidth, hruled, ← h.length_ruled_take hi.le, List.drop_left, List.take_left]

theorem not_mem_ruled : '\n' ∉ ruled cells := by
  intro hmem
  rw [ruled, List.mem_cons, barred, List.mem_flatMap] at hmem
  rcases hmem with hbar | ⟨cell, hcell, hmem⟩
  · cases hbar
  · rcases List.mem_append.1 hmem with hin | hbar
    · exact h.unbroken cell hcell hin
    · cases List.mem_singleton.1 hbar

end Fills

/-! ## The whole table -/

theorem toList_render (h : t.headers ≠ []) :
    t.render.toList = (t.cellLines.map ruled).flatMap (· ++ ['\n']) := by
  simp [render, h, headerLine_eq, ruleLine_eq, rowLine_eq, cellLines, List.flatMap_map, toList_line]

theorem pieces_flatMap {lines : List (List Char)} (h : ∀ line ∈ lines, '\n' ∉ line) :
    pieces (· == '\n') (lines.flatMap (· ++ ['\n'])) = lines ++ [[]] := by
  induction lines with
  | nil => rfl
  | cons line lines ih =>
    obtain ⟨hline, hrest⟩ := List.forall_mem_cons.1 h
    rw [List.flatMap_cons, List.append_assoc, List.singleton_append,
      pieces_append (beq_of_not_mem hline) (beq_self_eq_true _), ih hrest]
    rfl

/-- A table is printed as a line for the header, a rule and a line for each row. All lines are
equally long and have their bars in the same places. Between the bars of the first line stand the
headers, in the middle. Between the bars of a row stand its cells as they are, with a space at each
edge and the rest of the space opposite to the alignment. -/
theorem render_rectangular (h : t.Printable) :
    ∃ lines, pieces (· == '\n') t.render.toList = lines ++ [[]] ∧
      lines.length = 2 + t.rows.length ∧
      (∀ l ∈ lines, l.length = t.bar t.headers.length + 1 ∧
        ∀ i ≤ t.headers.length, l[t.bar i]? = some '|') ∧
      (∃ l, lines[0]? = some l ∧ ∀ i header, t.headers[i]? = some header →
        Centers header.toList (t.field l i)) ∧
      ∀ k row, t.rows[k]? = some row → ∃ l, lines[k + 2]? = some l ∧
        ∀ i cell, i < t.headers.length → row[i]? = some cell →
          Shows cell.toList (t.alignment i) (t.field l i) := by
  have hwidths : ∀ i < t.headers.length, ∃ w, t.widths[i]? = some w := fun i hi =>
    ⟨_, List.getElem?_eq_getElem (length_widths t ▸ hi)⟩
  refine ⟨t.cellLines.map ruled, ?_, ?_, ?_, ⟨ruled t.headerCells, rfl, ?_⟩, ?_⟩
  · rw [toList_render h.headers_ne, pieces_flatMap]
    exact List.forall_mem_map.2 fun cells hcells => (h.fills cells hcells).not_mem_ruled
  · rw [List.length_map, cellLines, List.length_cons, List.length_cons, List.length_map]
    omega
  · refine List.forall_mem_map.2 fun cells hcells => ?_
    have hfills := h.fills cells hcells
    exact ⟨hfills.length_ruled, fun i hi => hfills.getElem?_ruled_bar hi⟩
  · intro i header hheader
    obtain ⟨w, hw⟩ := hwidths i (List.getElem?_eq_some_iff.1 hheader).1
    rw [h.fills_headerCells.field_ruled
      (getElem?_headerCells_eq_some_iff.2 ⟨header, w, hheader, hw, rfl⟩)]
    exact centers_headerText header w
  · intro k row hrow
    refine ⟨ruled (t.rowCells row), by simp [cellLines, hrow], fun i cell hi hcell => ?_⟩
    obtain ⟨w, hw⟩ := hwidths i hi
    rw [(h.fills_rowCells (List.mem_of_getElem? hrow)).field_ruled
      (getElem?_rowCells_eq_some_iff.2 ⟨cell, w, hcell, hw, rfl⟩)]
    exact shows_cellText cell w _

def sizes : Table where
  headers := ["größe", "n", "←"]
  alignments := [.left, .right]
  rows := [["α|β", "12", "→", "x"], ["", "7", "ends"]]

theorem render_rectangular_sizes : sizes.Printable ∧
    sizes.render =
      "|  größe  | n  |  ←   |\n" ++
      "|:--------|---:|:-----|\n" ++
      "| α|β     | 12 | →    |\n" ++
      "|         |  7 | ends |\n" ∧
    ∃ lines, pieces (· == '\n') sizes.render.toList = lines ++ [[]] ∧
      lines.length = 2 + sizes.rows.length ∧
      (∀ l ∈ lines, l.length = sizes.bar sizes.headers.length + 1 ∧
        ∀ i ≤ sizes.headers.length, l[sizes.bar i]? = some '|') ∧
      (∃ l, lines[0]? = some l ∧ ∀ i header, sizes.headers[i]? = some header →
        Centers header.toList (sizes.field l i)) ∧
      ∀ k row, sizes.rows[k]? = some row → ∃ l, lines[k + 2]? = some l ∧
        ∀ i cell, i < sizes.headers.length → row[i]? = some cell →
          Shows cell.toList (sizes.alignment i) (sizes.field l i) := by
  have h : sizes.Printable :=
    { headers_ne := List.cons_ne_nil _ _
      header_unbroken := by decide +kernel
      cell_unbroken := by decide +kernel
      row_full := by decide +kernel }
  exact ⟨h, by decide +kernel, render_rectangular h⟩

end TraceCoverage.Table

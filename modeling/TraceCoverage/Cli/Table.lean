/-!
# Tables

Markdown tables with padded columns.
-/

namespace TraceCoverage

inductive Alignment where
  | left
  | right
deriving DecidableEq, Repr, Inhabited

structure Table where
  headers : List String
  /-- The alignment of each column; left where the list ends. -/
  alignments : List Alignment := []
  rows : List (List String) := []
deriving DecidableEq, Repr

namespace Table

/-! ## Padding -/

def spaces (n : Nat) : String := String.ofList (List.replicate n ' ')

def padRight (width : Nat) (s : String) : String := s ++ spaces (width - s.length)

def padLeft (width : Nat) (s : String) : String := spaces (width - s.length) ++ s

def center (width : Nat) (s : String) : String :=
  let free := width - s.length
  spaces (free / 2) ++ s ++ spaces (free - free / 2)

/-! ## Columns -/

def widen : List Nat → List String → List Nat
  | w :: ws, cell :: cells => max w cell.length :: widen ws cells
  | ws, _ => ws

/-- The width of each column: the bytes of its header, or the characters of its widest cell. -/
def widths (t : Table) : List Nat := t.rows.foldl widen (t.headers.map String.utf8ByteSize)

def alignment (t : Table) (column : Nat) : Alignment := t.alignments[column]?.getD .left

/-- A line of the table: each cell and the bar behind it. -/
def line (cells : List String) : String := "|" ++ String.join (cells.map (· ++ "|")) ++ "\n"

def columns (t : Table) : List (Nat × Alignment) :=
  t.widths.zipIdx.map fun (w, i) => (w, t.alignment i)

def headerLine (t : Table) : String :=
  line (t.headers.zipWith (fun h w => " " ++ center w h ++ " ") t.widths)

/-- The line under the header. A colon stands where the column is aligned to. -/
def ruleLine (t : Table) : String :=
  line <| t.columns.map fun (w, a) =>
    let dashes := String.ofList (List.replicate (w + 1) '-')
    match a with
    | .left => ":" ++ dashes
    | .right => dashes ++ ":"

/-- A row. Cells beyond the last column are left out. -/
def rowLine (t : Table) (row : List String) : String :=
  line <| row.zipWith
    (fun cell (w, a) =>
      match a with
      | .left => " " ++ padRight w cell ++ " "
      | .right => " " ++ padLeft w cell ++ " ")
    t.columns

/-- The table as text. Without headers there is no table. -/
def render (t : Table) : String :=
  if t.headers.isEmpty then ""
  else t.headerLine ++ t.ruleLine ++ String.join (t.rows.map t.rowLine)

end Table

end TraceCoverage

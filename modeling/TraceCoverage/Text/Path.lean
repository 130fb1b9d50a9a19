import TraceCoverage.Text.Scan

/-!
# Paths

A path is a text whose parts are separated by slashes. Empty parts and `.` name nothing.
-/

namespace TraceCoverage.Text

/-- The parts of a path that name something. -/
def parts (path : List Char) : List (List Char) :=
  (pieces (· == '/') path).filter fun p => !p.isEmpty && p != ['.']

/-- The last part, unless it leads upwards. -/
def fileName? (path : List Char) : Option (List Char) := (parts path).getLast?.filter (· != ['.', '.'])

/-- What follows the last dot of the file name. A dot at its start is not counted. -/
def extension? (path : List Char) : Option (List Char) :=
  (fileName? path).bind fun name =>
    match name.reverse.dropWhile (· != '.') with
    | [] | [_] => none
    | _ :: _ :: _ => some (name.reverse.takeWhile (· != '.')).reverse

end TraceCoverage.Text

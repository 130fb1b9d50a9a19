import TraceCoverage.Text.Scan
import TraceCoverage.Trace.Format

/-!
# What a session is asked to do
-/

namespace TraceCoverage

open Text

structure Input where
  executable : String
  traces : List String
deriving DecidableEq, Repr

namespace Input

/-- A name without `.` and the extension, if it ends so. -/
def stem (extension name : List Char) : List Char :=
  ((before? extension name).bind (before? ['.'])).getD name

/-- Pairs each executable with the trace that has its name and another extension. Dots before an
extension do not count. -/
def paired (executableExtension traceExtension : String) (executables : List String) :
    List Input :=
  let bare (extension : String) := extension.toList.dropWhile (· == '.')
  executables.map fun executable =>
    let stem := stem (bare executableExtension) executable.toList
    { executable
      traces := [String.ofList (stem ++ '.' :: bare traceExtension)] }

end Input

structure Config where
  target : String
  symbols : String
  inputs : List Input := []
  format : TraceFormat := .spike
  /-- The dynamic library to analyze in place of the executables. -/
  library : Option String := none
  /-- The extension of listings that were written ahead of time. -/
  dumpExtension : Option String := none
  keepTemps : Bool := false
deriving DecidableEq, Repr

end TraceCoverage

import TraceCoverage.Address
import TraceCoverage.Text.Stream

/-!
# Errors of the coverage model
-/

namespace TraceCoverage

inductive CoverageError where
  | invalidRange (low high : Address)
  | unknownSymbol (name : String)
  | duplicateSymbol (name : String)
  | noUnifiedMap (name : String)
  | notAnalyzed
  | unopened (path : String) (cause : ReadFailure)
  | unreadable (cause : ReadFailure)
deriving DecidableEq, Repr

def CoverageError.message : CoverageError → String
  | invalidRange low high =>
    "invalid address range 0x" ++ Text.toHex low.toNat ++ "..=0x" ++ Text.toHex high.toNat
  | unknownSymbol name => "symbol '" ++ name ++ "' is not in the analysis set"
  | duplicateSymbol name =>
    "symbol '" ++ name ++ "' already has a coverage map in this executable"
  | noUnifiedMap name => "symbol '" ++ name ++ "' has no unified coverage map"
  | notAnalyzed => "statistics requested before uncovered ranges were computed"
  | unopened path cause => "failed to read " ++ path ++ ": " ++ cause.message
  | unreadable cause => "IO error: " ++ cause.message

end TraceCoverage

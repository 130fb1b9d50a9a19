import TraceCoverage.Coverage.Error

/-!
# Errors of reading a listing or a load map
-/

namespace TraceCoverage

inductive ListingError where
  | unreadable (cause : ReadFailure)
  | coverage (cause : CoverageError)
  | libraryNotFound (library : String)
  | notALibrary (file : String)
deriving DecidableEq, Repr

def ListingError.message : ListingError → String
  | unreadable cause => "IO error: " ++ cause.message
  | coverage cause => "coverage error: " ++ cause.message
  | libraryNotFound library => "library '" ++ library ++ "' not found in load map"
  | notALibrary file => "context for '" ++ file ++ "' has no library name"

end TraceCoverage

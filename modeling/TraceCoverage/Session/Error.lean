import TraceCoverage.Listing.Error
import TraceCoverage.Target.Basic

/-!
# Errors of a session
-/

namespace TraceCoverage

inductive SessionError where
  | target (cause : TargetError)
  | coverage (cause : CoverageError)
  | listing (cause : ListingError)
  | unreadable (cause : ReadFailure)
  | openInput (path : String) (cause : ReadFailure)
  | spawn (program : String) (cause : ReadFailure)
  | disassemblerFailed (program executable : String) (status : Nat) (stderr : String)
  | noExecutables
deriving DecidableEq, Repr

def SessionError.message : SessionError → String
  | target cause => "target error: " ++ cause.message
  | coverage cause => "coverage error: " ++ cause.message
  | listing cause => "disassembly error: " ++ cause.message
  | unreadable cause => "IO error: " ++ cause.message
  | openInput path cause => "cannot open " ++ path ++ ": " ++ cause.message
  | spawn program cause => "failed to run " ++ program ++ ": " ++ cause.message
  | disassemblerFailed program executable status stderr =>
    program ++ " failed on " ++ executable ++ " (exit status: " ++ toString status ++ "): " ++ stderr
  | noExecutables => "no executables to analyze"

end TraceCoverage

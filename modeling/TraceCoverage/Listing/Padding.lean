import TraceCoverage.Listing.CodeLine

/-!
# Padding at the end of a symbol

The nops that end the code of a symbol only fill the space up to the next one. Text behind the last
instruction stays, and text between two nops ends the padding.
-/

namespace TraceCoverage.Padding

/-- The lines without the nops that end in the last instruction, and the bytes of those nops. -/
def trim (lines : List CodeLine) : List CodeLine × Nat :=
  let reversed := lines.reverse
  let after := reversed.takeWhile (!·.isInstruction)
  let code := reversed.dropWhile (!·.isInstruction)
  ((after ++ code.dropWhile (·.isNop)).reverse, ((code.takeWhile (·.isNop)).map (·.nopSize)).foldr (· + ·) 0)

/-- How many bytes `trim` takes off a symbol, as a 32-bit number that stops at the largest. -/
def bytes (lines : List CodeLine) : UInt32 := UInt32.ofNat (min (trim lines).2 0xffffffff)

end TraceCoverage.Padding

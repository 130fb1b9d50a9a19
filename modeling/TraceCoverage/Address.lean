import TraceCoverage.Text.Hex

/-!
# Addresses

Images are loaded into 32 bits, and sums of addresses wrap.
-/

namespace TraceCoverage

open Text

abbrev Address := UInt32

/-- An address as people write it: hexadecimal, after any number of `0x`, then any number of `0X`,
and then at most one `+`. -/
def Address.ofChars? (cs : List Char) : Option Address :=
  let digits := dropPairs '0' 'X' (dropPairs '0' 'x' cs)
  word32? ((after? ['+'] digits).getD digits)

end TraceCoverage

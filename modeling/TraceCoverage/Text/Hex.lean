import TraceCoverage.Text.Blank

/-!
# Hexadecimal numbers

Digits of either case, any number of leading zeros, and a bound on the value.
-/

namespace TraceCoverage.Text

def isHexDigit (c : Char) : Bool :=
  ('0' ≤ c && c ≤ '9') || ('a' ≤ c && c ≤ 'f') || ('A' ≤ c && c ≤ 'F')

def hexDigit (c : Char) : Nat :=
  if c ≤ '9' then c.toNat - 0x30
  else if c ≤ 'F' then c.toNat - 0x37
  else c.toNat - 0x57

/-- The number that a run of digits writes, the highest digit first. -/
def hexValue (cs : List Char) : Nat := cs.foldl (fun n c => 16 * n + hexDigit c) 0

def isHex (cs : List Char) : Bool := !cs.isEmpty && cs.all isHexDigit

/-- The number written by `cs`, if it is hexadecimal and has at most `bits` bits. -/
def hex? (bits : Nat) (cs : List Char) : Option Nat :=
  if isHex cs && hexValue cs < Nat.pow 2 bits then some (hexValue cs) else none

def word32? (cs : List Char) : Option UInt32 := (hex? 32 cs).map UInt32.ofNat

/-- The shortest digits of a number, in lower case. -/
def toHex (n : Nat) : String := String.ofList (Nat.toDigits 16 n)

end TraceCoverage.Text

import TraceCoverage.Target.Architecture
import TraceCoverage.Target.Operands

/-!
# Targets

Machine code is never decoded here. All that coverage needs to know about an instruction (is it a
conditional branch, is it padding, where does it go) a target answers from the text of its line.
-/

namespace TraceCoverage

open Text

/-- A call into the middle of a symbol: what a disassembler shows when it decodes a jump table
behind a call that does not return. -/
def InsnLine.callsInto (insn : InsnLine) : Bool :=
  occursIn "call".toList insn.mnemonic && Operands.hasDisplacedLabel insn.operands

structure Target where
  name : String
  isBranch : List Char → Bool
  /-- The size of the instruction on a line, if it is padding. -/
  nopSize : List Char → Option UInt32
  /-- Whether jump-table data follows the line. -/
  isSentinel : List Char → Bool := fun line => (InsnLine.ofChars? line).any InsnLine.callsInto

inductive TargetError where
  | emptyTarget
  | unknownArchitecture (target architecture : String)
deriving DecidableEq, Repr

def TargetError.message : TargetError → String
  | emptyTarget => "empty target name"
  | unknownArchitecture target architecture =>
    "unknown architecture '" ++ architecture ++ "' in target '" ++ target ++ "'"

namespace Target

def ofArchitecture (name : String) (a : Architecture) : Target where
  name
  isBranch := a.isBranch
  nopSize line := (InsnLine.ofChars? line).bind a.nopSize
  isSentinel line := (InsnLine.ofChars? line).any fun insn =>
    a.calls.contains (String.ofList (lower insn.mnemonic)) &&
      Operands.hasDisplacedLabel insn.operands

/-- The target of a name. The family is the part before the first `-`. -/
def ofName (name : String) : Except TargetError Target :=
  let name := trim name.toList
  let family := name.takeWhile (· != '-')
  if name.isEmpty then .error .emptyTarget
  else
    match Architecture.ofFamily? family with
    | some a => .ok (ofArchitecture (String.ofList name) a)
    | none => .error (.unknownArchitecture (String.ofList name) (String.ofList family))

def isBranchLine (t : Target) (line : List Char) : Bool :=
  (InsnLine.ofChars? line).any fun insn => t.isBranch insn.mnemonic

/-- Where the branch on a line goes, as the disassembler shows it. -/
def branchTarget (_ : Target) (line : List Char) : Option UInt32 :=
  (InsnLine.ofChars? line).bind fun insn => Operands.displayedTarget insn.operands

def disassembler (t : Target) : String := t.name ++ "-objdump"

end Target

end TraceCoverage

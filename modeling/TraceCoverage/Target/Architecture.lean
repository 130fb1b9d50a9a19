import TraceCoverage.Target.InsnLine

/-!
# Architecture families

What each family calls a conditional branch, a call before jump-table data, and padding.
-/

namespace TraceCoverage

open Text

inductive Architecture where
  | arm
  | i386
  | m68k
  | powerPc
  | riscV
  | sparc
deriving DecidableEq, Repr

namespace Architecture

/-- The family of a name such as `sparc` or `riscv64`, in letters of either case. -/
def ofFamily? (family : List Char) : Option Architecture :=
  match String.ofList (lower family) with
  | "arm" | "armv7" | "armv7m" | "thumb" => some arm
  | "i386" | "i486" | "i586" | "i686" | "x86" => some i386
  | "m68k" | "coldfire" => some m68k
  | "powerpc" | "ppc" => some powerPc
  | "riscv" | "riscv32" | "riscv64" => some riscV
  | "sparc" | "sparc64" => some sparc
  | _ => none

def insnSize : Architecture → UInt32
  | i386 => 1
  | m68k => 2
  | arm | powerPc | riscV | sparc => 4

/-- Conditional branches, with the marks of `normalize` taken off. -/
def branches : Architecture → List String
  | arm =>
    ["beq", "bne", "bcs", "bhs", "bcc", "blo", "bmi", "bpl", "bvs", "bvc", "bhi", "bls",
     "bge", "blt", "bgt", "ble", "cbz", "cbnz"]
  | i386 =>
    ["ja", "jae", "jb", "jbe", "jc", "jcxz", "jecxz", "je", "jg", "jge", "jl", "jle",
     "jna", "jnae", "jnb", "jnbe", "jnc", "jne", "jng", "jnge", "jnl", "jnle", "jno",
     "jnp", "jns", "jnz", "jo", "jp", "jpe", "jpo", "js", "jz", "loop", "loope",
     "loopne", "loopnz", "loopz"]
  | m68k =>
    ["bhi", "bls", "bcc", "bcs", "bhs", "blo", "bne", "beq", "bvc", "bvs", "bpl", "bmi",
     "bge", "blt", "bgt", "ble", "dbhi", "dbls", "dbcc", "dbcs", "dbne", "dbeq", "dbvc",
     "dbvs", "dbpl", "dbmi", "dbge", "dblt", "dbgt", "dble", "dbf", "dbra"]
  | powerPc =>
    ["bc", "bca", "bcl", "bcla", "bdnz", "bdz", "bdnzt", "bdnzf", "bdzt", "bdzf", "beq",
     "bne", "blt", "ble", "bgt", "bge", "bnl", "bng", "bso", "bns", "bun", "bnu"]
  | riscV =>
    ["beq", "bne", "blt", "bge", "bltu", "bgeu", "beqz", "bnez", "blez", "bgez", "bltz",
     "bgtz", "bgt", "ble", "bgtu", "bleu", "c.beqz", "c.bnez"]
  | sparc =>
    ["bne", "be", "bg", "ble", "bge", "bl", "bgu", "bleu", "bcc", "bcs", "bpos", "bneg",
     "bvc", "bvs", "bz", "bnz", "bgeu", "blu", "brz", "brlez", "brlz", "brnz", "brgz",
     "brgez", "fbne", "fbe", "fbg", "fbge", "fbl", "fble", "fblg", "fbu", "fbug",
     "fbuge", "fbul", "fbule", "fbue", "fbo"]

def calls : Architecture → List String
  | i386 => ["call", "calll", "callw"]
  | sparc => ["call"]
  | riscV => ["call", "jal"]
  | m68k => ["jsr", "bsr", "bsrl", "bsrw"]
  | arm => ["bl", "blx"]
  | powerPc => ["bl"]

/-- A mnemonic in lower case, without width qualifiers (`beq.n`), annul and prediction marks
(`bne,pt`, `beq+`) or dots (`bne.s`). -/
def normalize (a : Architecture) (mnemonic : List Char) : List Char :=
  let name := lower mnemonic
  match a with
  | arm => (dropPairs 'w' '.' (dropPairs 'n' '.' name.reverse)).reverse
  | sparc => name.takeWhile (· != ',')
  | powerPc => (name.reverse.dropWhile fun c => c == '+' || c == '-').reverse
  | m68k => name.filter (· != '.')
  | i386 | riscV => name

/-- What a branch mnemonic may carry at its end besides its table name: a size, or a link,
absolute or register form. -/
def suffixes : Architecture → List String
  | m68k => ["s", "w", "l", "b"]
  | powerPc => ["lrl", "ctrl", "lr", "ctr", "la", "l", "a"]
  | arm | i386 | riscV | sparc => []

def isBranch (a : Architecture) (mnemonic : List Char) : Bool :=
  let name := a.normalize mnemonic
  a.branches.contains (String.ofList name) ||
    a.suffixes.any fun suffix =>
      (before? suffix.toList name).any fun base => a.branches.contains (String.ofList base)

/-- Instructions that do nothing, by mnemonic in lower case and operands without blanks. -/
def isPadding (a : Architecture) (mnemonic operands : String) : Bool :=
  match a with
  | i386 =>
    (after? "nop".toList mnemonic.toList).isSome ||
      (mnemonic == "xchg" && operands == "%ax,%ax") ||
      (mnemonic == "lea" &&
        ["0x0(%esi),%esi", "0x0(%edi),%edi", "0x0(%esi,%eiz,1),%esi",
          "0x0(%edi,%eiz,1),%edi"].contains operands) ||
      (mnemonic == "mov" && ["%esi,%esi", "%edi,%edi"].contains operands)
  | arm => mnemonic == "nop" || (mnemonic == "mov" && operands == "r0,r0")
  | powerPc => mnemonic == "nop" || (mnemonic == "ori" && operands == "r0,r0,0")
  | riscV => mnemonic == "nop" || mnemonic == "c.nop"
  | m68k | sparc => mnemonic == "nop"

def nopSize (a : Architecture) (insn : InsnLine) : Option UInt32 :=
  let mnemonic := String.ofList (lower insn.mnemonic)
  let operands := String.ofList (insn.operands.filter (!isBlank ·))
  if a.isPadding mnemonic operands then
    some (insn.sizeOr (if a = riscV ∧ mnemonic = "c.nop" then 2 else a.insnSize))
  else none

end Architecture

end TraceCoverage

import TraceCoverage.Text.Hex

/-!
# Instruction lines and their columns

A disassembler prints an instruction as
`<offset>:<tab><encoding bytes><tab><mnemonic> <operands>`. The encoding column may be left out,
and a long encoding goes on over a line that holds bytes only.
-/

namespace TraceCoverage

open Text

structure InsnLine where
  /-- The offset printed before the colon, without any load address. -/
  offset : UInt32
  /-- The encoding column, empty when it is not shown. -/
  encoding : List Char
  /-- Empty for a line that only goes on with an encoding. -/
  mnemonic : List Char
  operands : List Char
deriving DecidableEq, Repr

namespace InsnLine

/-- Words of whole bytes, and at least one of them. -/
def isEncoding (body : List Char) : Bool :=
  let tokens := words body
  !tokens.isEmpty && tokens.all fun t => t.length % 2 == 0 && t.all isHexDigit

/-- The encoding column and the instruction in what follows the colon. Without a second tab the
one field is an encoding if it looks like one. -/
def columns : List Char → List Char × List Char
  | '\t' :: body =>
    match cut (· == '\t') body with
    | some (encoding, insn) => (trim encoding, trim insn)
    | none => if isEncoding body then (trim body, []) else ([], trim body)
  | rest => ([], trim rest)

/-- The mnemonic ends at the first blank. -/
def splitInsn (insn : List Char) : List Char × List Char :=
  match cut isBlank insn with
  | some (mnemonic, operands) => (mnemonic, trim operands)
  | none => (insn, [])

/-- Splits `<hex>:<blank>...`; any other line is no instruction line. -/
def ofChars? (line : List Char) : Option InsnLine :=
  match cut (· == ':') (trimStart line) with
  | none => none
  | some (digits, rest) =>
    if rest.head?.any isBlank then
      (word32? digits).map fun offset =>
        let (encoding, insn) := columns rest
        let (mnemonic, operands) := splitInsn insn
        { offset, encoding, mnemonic, operands }
    else none

def encodingLength (insn : InsnLine) : UInt32 :=
  UInt32.ofNat (min (insn.encoding.countP isHexDigit / 2) 0xffffffff)

/-- The size of the instruction, or `fallback` when no encoding is shown. -/
def sizeOr (insn : InsnLine) (fallback : UInt32) : UInt32 :=
  if insn.encodingLength = 0 then fallback else insn.encodingLength

end InsnLine

end TraceCoverage

import TraceCoverage.Address
import TraceCoverage.Target.Basic

/-!
# Kinds of listing lines

A line of a disassembly listing is a symbol header, a call before jump-table data, an instruction,
or text, and the first of these that fits counts.
-/

namespace TraceCoverage

open Text

inductive LineKind where
  /-- `00000400 <label>:` -/
  | header (offset : UInt32) (label : String)
  /-- Jump-table data follows the instruction at the offset. -/
  | sentinel (offset : UInt32)
  /-- `     400:<tab>55   <tab>push %ebp` -/
  | instruction (offset : UInt32)
  /-- Source, file marks, and lines that go on with an encoding. -/
  | text
deriving DecidableEq, Repr

namespace LineKind

/-- The label of `<label>:` with blanks behind it. A label is not empty and has no line feed. -/
def label? (cs : List Char) : Option String :=
  match cs with
  | '<' :: rest =>
    (before? ['>', ':'] (trimEnd rest)).bind fun label =>
      if label.isEmpty || label.contains '\n' then none else some (String.ofList label)
  | _ => none

def header? (line : List Char) : Option (UInt32 × String) :=
  let line := trimStart line
  let rest := line.dropWhile isHexDigit
  if rest.head?.any isBlank then
    match word32? (line.takeWhile isHexDigit), label? (trimStart rest) with
    | some offset, some label => some (offset, label)
    | _, _ => none
  else none

/-- The offset of a line that starts with an offset, a colon and a tab. -/
def codeOffset? (line : List Char) : Option UInt32 :=
  let line := trimStart line
  match line.dropWhile isHexDigit with
  | ':' :: '\t' :: _ => word32? (line.takeWhile isHexDigit)
  | _ => none

/-- The kind of a line. An instruction needs a mnemonic. -/
def ofLine (t : Target) (line : List Char) : LineKind :=
  match header? line with
  | some (offset, label) => header offset label
  | none =>
    match if t.isSentinel line then InsnLine.ofChars? line else none with
    | some insn => sentinel insn.offset
    | none =>
      match codeOffset? line, (InsnLine.ofChars? line).any (!·.mnemonic.isEmpty) with
      | some offset, true => instruction offset
      | _, _ => text

def codeAddress? : LineKind → Option UInt32
  | instruction offset | sentinel offset => some offset
  | header .. | text => none

end LineKind

/-- The addresses of all instructions of a listing that is loaded at `bias`, in order. -/
def instructionAddresses (t : Target) (bias : Address) (lines : List String) : List Address :=
  lines.filterMap fun line => ((LineKind.ofLine t line.toList).codeAddress?).map (bias + ·)

end TraceCoverage

import TraceCoverage.Address

/-!
# Trace formats

A trace is a text with one executed instruction on a line. Lines that do not fit the format say
nothing and are passed over.
-/

namespace TraceCoverage

open Text

inductive TraceFormat where
  /-- The commit log of the Spike simulator: `core   0: 3 0x<pc> (0x<opcode>) ...` -/
  | spike
  /-- A hexadecimal program counter on each line. -/
  | pcs
deriving DecidableEq, Repr

structure UnknownTraceFormat where
  name : String
deriving DecidableEq, Repr

def UnknownTraceFormat.message (e : UnknownTraceFormat) : String :=
  "unknown trace format '" ++ e.name ++ "'"

structure TraceEntry where
  pc : Address
  /-- The address behind the instruction, where the trace gives its size. -/
  next : Option Address := none
deriving DecidableEq, Repr

structure Commit where
  pc : Address
  opcode : UInt32
deriving DecidableEq, Repr

namespace Commit

/-- The digits of `0x<pc> (0x<opcode>)` at the start. -/
def startsCommit (cs : List Char) : Option (List Char × List Char) :=
  (after? "0x".toList cs).bind fun rest =>
    let pc := rest.takeWhile isHexDigit
    let tail := rest.dropWhile isHexDigit
    if !pc.isEmpty && tail.head?.any isBlank then
      (after? "(0x".toList (trimStart tail)).bind fun rest =>
        let opcode := rest.takeWhile isHexDigit
        if !opcode.isEmpty && (rest.dropWhile isHexDigit).head? == some ')' then some (pc, opcode)
        else none
    else none

/-- The digits of the first `0x<pc> (0x<opcode>)`. -/
def digits? : List Char → Option (List Char × List Char)
  | [] => none
  | c :: cs => (startsCommit (c :: cs)).or (digits? cs)

/-- A commit line starts with `core`. A program counter may be logged with up to 64 bits, of which
the lower 32 count. -/
def ofLine? (line : List Char) : Option Commit :=
  let line := trim line
  if "core".toList.isPrefixOf line then
    match digits? line with
    | none => none
    | some (pc, opcode) =>
      match hex? 64 pc, word32? opcode with
      | some pc, some opcode => some { pc := UInt32.ofNat pc, opcode }
      | _, _ => none
  else none

/-- The size of the instruction: four bytes if both low bits of the opcode are set. -/
def size (c : Commit) : UInt32 := if c.opcode &&& 3 = 3 then 4 else 2

/-- The address behind the instruction, unless it runs past the last one. -/
def next? (c : Commit) : Option Address :=
  if c.pc.toNat + c.size.toNat < 0x100000000 then some (c.pc + c.size) else none

end Commit

namespace TraceFormat

/-- A format by its name, in letters of either case. -/
def ofName (name : String) : Except UnknownTraceFormat TraceFormat :=
  match String.ofList (lower name.toList) with
  | "spike" => .ok spike
  | "pcs" | "pc" => .ok pcs
  | other => .error ⟨other⟩

/-- The program counter on a line of a plain list: its first word. Comments start with `#`. -/
def pcOfLine? (line : List Char) : Option Address :=
  match words line with
  | [] => none
  | w :: _ => if w.head? == some '#' then none else Address.ofChars? w

def entry? (format : TraceFormat) (line : String) : Option TraceEntry :=
  match format with
  | spike => (Commit.ofLine? line.toList).map fun c => { pc := c.pc, next := c.next? }
  | pcs => (pcOfLine? line.toList).map fun pc => { pc }

end TraceFormat

end TraceCoverage

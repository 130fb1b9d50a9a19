import TraceCoverage.Text.Hex

/-!
# What operands say about addresses

A disassembler writes an address as `<hex> <label>`, and as `<hex> <label+0x...>` when it lies
inside the symbol.
-/

namespace TraceCoverage.Operands

open Text

/-- `<label+0x...>` stands at the start. -/
def startsDisplaced : List Char → Bool
  | '<' :: rest =>
    let inLabel : Char → Bool := fun c => c != '>' && c != '+'
    !(rest.takeWhile inLabel).isEmpty &&
      match rest.dropWhile inLabel with
      | '+' :: '0' :: 'x' :: digits =>
        !(digits.takeWhile isHexDigit).isEmpty && (digits.dropWhile isHexDigit).head? == some '>'
      | _ => false
  | _ => false

/-- `<label+0x...>` stands somewhere: the operand points into the middle of a symbol. -/
def hasDisplacedLabel : List Char → Bool
  | [] => false
  | c :: cs => startsDisplaced (c :: cs) || hasDisplacedLabel cs

/-- `<label>` stands at the start. -/
def startsLabel : List Char → Bool
  | '<' :: rest => !(rest.takeWhile (· != '>')).isEmpty && (rest.dropWhile (· != '>')).head? == some '>'
  | _ => false

/-- The digits of `<hex> <label>` at the start, with or without `0x`. -/
def startsTarget (cs : List Char) : Option (List Char) :=
  let rest := (after? ['0', 'x'] cs).getD cs
  let digits := rest.takeWhile isHexDigit
  let tail := rest.dropWhile isHexDigit
  if !digits.isEmpty && tail.head?.any isBlank && startsLabel (tail.dropWhile isBlank) then
    some digits
  else none

/-- The digits of the first `<hex> <label>`, where `fresh` says that one may start here: at the
very start, after a blank or after a comma. -/
def targetDigits (fresh : Bool) : List Char → Option (List Char)
  | [] => none
  | c :: cs =>
    match if fresh then startsTarget (c :: cs) else none with
    | some digits => some digits
    | none => targetDigits (isBlank c || c == ',') cs

/-- The address shown before a label, if it has at most 32 bits. -/
def displayedTarget (cs : List Char) : Option UInt32 := (targetDigits true cs).bind word32?

end TraceCoverage.Operands

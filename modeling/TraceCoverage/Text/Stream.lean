/-!
# Lines read from a file

A text stream is what a reader sees of a file: its lines, and then the failure that stops the
reading, if there is one. A compressed file is read through a decoder.
-/

namespace TraceCoverage

inductive ReadFailure where
  | missing
  | notDirectory
  | isDirectory
  | permissionDenied
  /-- A path, or a name in it, has too many bytes. -/
  | nameTooLong
  | nulInPath
  /-- The name of a program to run has a NUL in it. -/
  | nulInProgram
  | notUtf8
  /-- There is something already where a file is to be made. -/
  | taken
  /-- A decoder gave up on a compressed file. -/
  | undecodable (message : String)
  /-- An executable to disassemble is not a regular file. -/
  | noExecutable
deriving DecidableEq, Repr

namespace ReadFailure

def message : ReadFailure → String
  | missing => "No such file or directory (os error 2)"
  | notDirectory => "Not a directory (os error 20)"
  | isDirectory => "Is a directory (os error 21)"
  | permissionDenied => "Permission denied (os error 13)"
  | nameTooLong => "File name too long (os error 36)"
  | nulInPath => "file name contained an unexpected NUL byte"
  | nulInProgram => "nul byte found in provided data"
  | notUtf8 => "stream did not contain valid UTF-8"
  | taken => "File exists (os error 17)"
  | undecodable message => message
  | noExecutable => "no such file"

end ReadFailure

/-- What a decoder yields of a compressed file: bytes, and then the failure that stops it, if there
is one. -/
structure Decoded where
  bytes : ByteArray := .empty
  failure : Option ReadFailure := none

/-- Undoes the compression of a file. -/
abbrev Decoder := ByteArray → Decoded

structure TextStream where
  lines : List String
  failure : Option ReadFailure := none
deriving DecidableEq, Repr

namespace TextStream

/-- A line, the last byte first, without the carriage return that its line feed takes along. -/
def withoutReturn : List UInt8 → List UInt8
  | 0x0D :: rest => rest
  | line => line

/-- The bytes of the lines of a file. A line feed ends a line. `line` holds the bytes of the open
line and `done` the lines before it, the last one first in both. -/
def split (done : List (List UInt8)) (line : List UInt8) : List UInt8 → List (List UInt8)
  | [] => (if line.isEmpty then done else line.reverse :: done).reverse
  | b :: bytes =>
    if b = 0x0A then split ((withoutReturn line).reverse :: done) [] bytes
    else split done (b :: line) bytes

def ofBytes (bytes : ByteArray) : TextStream :=
  let lines := (split [] [] bytes.toList).map fun line => String.fromUTF8? line.toByteArray
  { lines := (lines.takeWhile (·.isSome)).filterMap id
    failure := if lines.all (·.isSome) then none else some .notUtf8 }

/-- The lines that have ended, with their line feeds. -/
def endedLines (bytes : ByteArray) : ByteArray :=
  (bytes.toList.reverse.dropWhile (· ≠ 0x0A)).reverse.toByteArray

/-- The lines of a compressed file. The line that is open when the decoder fails is lost. -/
def ofDecoded (decoded : Decoded) : TextStream :=
  match decoded.failure with
  | none => ofBytes decoded.bytes
  | some cause =>
    let ended := ofBytes (endedLines decoded.bytes)
    { ended with failure := ended.failure.or (some cause) }

/-- A stream that fails before its first line. -/
def failed (failure : ReadFailure) : TextStream := { lines := [], failure := some failure }

end TextStream

end TraceCoverage

import TraceCoverage.Session.Error
import TraceCoverage.Session.Scratch

/-!
# Sources of listings

A listing comes from a file that was written ahead of time, or from a disassembler whose output
goes to temporary files.
-/

namespace TraceCoverage

open Text

structure Workspace where
  scratch : Scratch := {}
  warnings : List Warning := []

/-- A step of a session. A failed step leaves its traces in the workspace. -/
abbrev SessionM := ExceptT SessionError (StateM Workspace)

namespace SessionM

def warn (ws : List Warning) : SessionM Unit :=
  modify fun w => { w with warnings := w.warnings ++ ws }

def scratch : SessionM Scratch := return (← get).scratch

def setScratch (s : Scratch) : SessionM Unit := modify fun w => { w with scratch := s }

def ofExcept {ε α : Type} (wrap : ε → SessionError) (result : Except ε α) : SessionM α :=
  match result with
  | .ok a => pure a
  | .error cause => throw (wrap cause)

/-- Makes a registered temporary file. -/
def createTemp (start ending : String) : SessionM String := do
  let (path, s) ← ofExcept .unreadable ((← scratch).create start ending)
  setScratch s
  return path

end SessionM

/-- What a program that ran to its end left. -/
structure Completed where
  status : Nat := 0
  stdout : ByteArray := .empty
  stderr : ByteArray := .empty

/-- The programs that can be run, by name. Each is a function of its arguments. -/
abbrev Programs := String → Option (List String → Completed)

abbrev Disassembler := String → SessionM FileNode

namespace Disassembler

/-! ## Listings written ahead of time -/

/-- The listing of an executable, beside it. Dots before the extension do not count. -/
def dumpPath (extension executable : String) : String :=
  executable ++ "." ++ String.ofList (extension.toList.dropWhile (· == '.'))

def dumpFile (extension : String) : Disassembler := fun executable => do
  let path := dumpPath extension executable
  SessionM.ofExcept (.openInput path) ((← SessionM.scratch).tree.find path)

/-! ## Running a disassembler -/

def arguments (executable : String) : List String :=
  ["-Cda", "--section=.text", "--source", executable]

/-- Why a program that is not among the known ones cannot be started. A name without slashes is
looked up in directories that hold nothing but the known programs. -/
def spawnFailure (tree : FileTree) (program : String) : ReadFailure :=
  if program.toList.contains '\x00' then .nulInProgram
  else if program.toList.contains '/' then
    match tree.find program with
    | .ok _ => .permissionDenied
    | .error cause => cause
  else if program = "." ∨ program = ".." then .permissionDenied
  else if FileTree.nameLimit < program.utf8ByteSize then .nameTooLong
  else .missing

def command (programs : Programs) (program : String) : Disassembler := fun executable => do
  unless (← SessionM.scratch).tree.isFile executable do
    throw (.openInput executable .noExecutable)
  let stdout ← SessionM.createTemp "xcov-objdump-" ".dis"
  let stderr ← SessionM.createTemp "xcov-objdump-" ".err"
  let s ← SessionM.scratch
  match programs program with
  | none => throw (.spawn program (spawnFailure s.tree program))
  | some main =>
    let done := main (arguments executable)
    let tree := (s.tree.write stdout done.stdout).write stderr done.stderr
    SessionM.setScratch { s with tree }
    if done.status = 0 then return .file done.stdout
    else
      let text := (String.fromUTF8? done.stderr).getD ""
      throw (.disassemblerFailed program executable done.status
        (String.ofList (trim text.toList)))

end Disassembler

end TraceCoverage

import TraceCoverage.Listing.LoadMap
import TraceCoverage.Session.Config
import TraceCoverage.Session.Disassembler
import TraceCoverage.Session.Pipeline

/-!
# Sessions

A session reads the files that its configuration names and runs the analysis over them. Its
temporary files are gone at the end, however it ends, unless they are to be kept.
-/

namespace TraceCoverage

open Text

structure Session where
  config : Config
  target : Target
  registry : Registry
  disassembler : Disassembler
  /-- What compressed traces are read through. -/
  decoder : Decoder

structure ExecutableSummary where
  id : Nat
  path : String
  symbols : Nat
  traces : TraceSummary
deriving DecidableEq, Repr

structure Report where
  registry : Registry
  totals : Totals
  executables : List ExecutableSummary

namespace Session

/-! ## Opening -/

def loadSymbols (tree : FileTree) (path : String) : Except CoverageError Registry :=
  match tree.openText path with
  | .error cause => .error (.unopened path cause)
  | .ok stream =>
    let loaded := ({} : Registry).load stream
    loaded.result.map fun _ => loaded.state

/-- Where listings come from: from beside the executables, or from the disassembler of the target. -/
def chooseDisassembler (config : Config) (programs : Programs) (target : Target) : Disassembler :=
  match config.dumpExtension with
  | some extension => .dumpFile extension
  | none => .command programs target.disassembler

/-- Chooses the target and loads the symbols. No listing is read yet. -/
def start (config : Config) (programs : Programs) (decoder : Decoder) : SessionM Session := do
  if config.inputs.isEmpty then throw .noExecutables
  let target ← SessionM.ofExcept .target (Target.ofName config.target)
  let registry ← SessionM.ofExcept .coverage (loadSymbols (← SessionM.scratch).tree config.symbols)
  if registry.symbols.isEmpty then SessionM.warn [.emptySymbolList config.symbols]
  let disassembler := chooseDisassembler config programs target
  return { config, target, registry, disassembler, decoder }

/-! ## Reading -/

/-- An executable as it is before its listing is read. A library gets the address at which the
executable loads it. -/
def openExecutable (library : Option String) (id : Nat) (input : Input) : SessionM Executable := do
  let e : Executable := { id, file := input.executable, library }
  if library.isNone then return e
  let path := LoadMap.pathFor input.executable
  match (← SessionM.scratch).tree.openText path with
  | .error cause => throw (.listing (.coverage (.unopened path cause)))
  | .ok stream =>
    SessionM.warn (LoadMap.warnings stream.lines)
    let map ← SessionM.ofExcept .listing (LoadMap.ofStream stream)
    let resolved := map.resolve e
    discard (SessionM.ofExcept .listing resolved.result)
    return resolved.state

/-- Reads the listing of an executable, or of the library in its place. -/
def readListing (s : Session) (e : Executable) : SessionM ReadExecutable := do
  let listing ← s.disassembler (e.library.getD e.file)
  let read := Listing.read s.target s.registry.contains e listing.stream
  SessionM.warn read.warnings
  let resolved ← SessionM.ofExcept .listing read.result
  return { executable := read.state, resolved }

/-! ## Traces -/

/-- Opens a trace, which is compressed if its extension says so. -/
def openTrace (decoder : Decoder) (tree : FileTree) (path : String) :
    Except ReadFailure TextStream :=
  if extension? path.toList = some "zst".toList then
    (tree.find path).map (FileNode.decodedStream decoder)
  else tree.openText path

def replayTraces (s : Session) (e : Executable) : List String → SessionM (Executable × TraceSummary)
  | [] => return (e, {})
  | path :: rest => do
    let tree := (← SessionM.scratch).tree
    let stream ← SessionM.ofExcept (.openInput path) (openTrace s.decoder tree path)
    let replay := e.replay s.config.format stream
    let summary ← SessionM.ofExcept .unreadable replay.result
    if summary.matched = 0 then SessionM.warn [.traceMissed path e.file]
    let (e, others) ← replayTraces s replay.state rest
    return (e, summary + others)

/-! ## The run -/

def settle {α : Type} (wrap : CoverageError → SessionError)
    (o : Outcome Registry CoverageError α) : SessionM (Registry × α) := do
  SessionM.warn o.warnings
  let a ← SessionM.ofExcept wrap o.result
  return (o.state, a)

def execute (s : Session) : SessionM Report := do
  let inputs := s.config.inputs
  let opened ← inputs.zipIdx.mapM fun (input, id) => openExecutable s.config.library id input
  let read ← opened.mapM s.readListing
  let (adopted, _) ← settle (.listing <| .coverage ·) (Pipeline.adoptAll s.registry read)
  let traced ← (read.zip inputs).mapM fun (e, input) =>
    s.replayTraces e.executable input.traces
  let (merged, _) ← settle .coverage (Pipeline.mergeAll adopted (traced.map (·.1)))
  let (registry, totals) ← settle .coverage (Pipeline.conclude merged)
  let executables := (read.zip traced).map fun (e, _, traces) =>
    { id := e.executable.id, path := e.executable.file, symbols := e.resolved.length, traces }
  return { registry, totals, executables }

def cleanup (w : Workspace) : Workspace :=
  let (_, warnings, scratch) := w.scratch.cleanup
  { scratch, warnings := w.warnings ++ warnings }

/-- Runs the session and cleans up behind it. -/
def run (s : Session) : SessionM Report :=
  ExceptT.mk do
    let result ← s.execute.run
    modify cleanup
    return result

end Session

end TraceCoverage

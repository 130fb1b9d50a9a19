import TraceCoverage.Cli.Arguments
import TraceCoverage.Cli.Summary

/-!
# The command line

What the program prints and how it exits, as a function of its arguments and of the files it can
see.
-/

namespace TraceCoverage

structure CommandResult where
  exitCode : Nat := 0
  stdout : String := ""
  stderr : String := ""
  report : Option Report := none
  /-- Why there is none, for the log. -/
  error : Option SessionError := none
  workspace : Workspace := {}

namespace CommandResult

def print (c : CommandResult) (text : String) : CommandResult := { c with stdout := c.stdout ++ text }

/-- A line for the user, behind a mark. -/
def say (c : CommandResult) (mark text : String) : CommandResult :=
  { c with stderr := c.stderr ++ mark ++ " " ++ text ++ "\n" }

def info (c : CommandResult) : String → CommandResult := c.say "→"
def success (c : CommandResult) : String → CommandResult := c.say "✓"
def failure (c : CommandResult) (text : String) : CommandResult :=
  { c.say "✗" text with exitCode := 1 }

end CommandResult

namespace AnalyzeArguments

/-- The executables with their traces: one with the files as its traces, or each file with the
trace of its name. -/
def inputs? (a : AnalyzeArguments) : Option (List Input) :=
  match a.single, a.executableExtension, a.traceExtension with
  | some executable, _, _ => some [{ executable, traces := a.files }]
  | none, some executableExtension, some traceExtension =>
    some (Input.paired executableExtension traceExtension a.files)
  | _, _, _ => none

def config (a : AnalyzeArguments) (inputs : List Input) : Config where
  target := a.target
  symbols := a.symbols
  inputs
  format := a.format
  library := a.library
  dumpExtension := a.dumpExtension
  keepTemps := a.keepTemps

def paths (a : AnalyzeArguments) : List String :=
  let inputs := a.inputs?.getD []
  let listed := (a.library.toList ++ inputs.map (·.executable)).eraseDups
  a.symbols :: inputs.flatMap (·.traces) ++ listed ++ listed.map LoadMap.pathFor ++
    a.dumpExtension.toList.flatMap fun extension => listed.map (Disassembler.dumpPath extension)

/-- A single executable without traces is analyzed as never run. -/
def warnings (a : AnalyzeArguments) : List Warning :=
  match a.single with
  | some executable => if a.files.isEmpty then [.noTraces executable] else []
  | none => []

/-- Prints the result of a run. -/
def present (a : AnalyzeArguments) (silent : Bool) (r : Report) (c : CommandResult) :
    CommandResult :=
  let c := { c.success "analysis complete" with report := some r }
  if silent then c
  else
    let c := c.print ("\n" ++ r.totalsTable.render)
    let c := (r.executables.map Report.executableLine).foldl CommandResult.info c
    if a.symbolsTable then c.print r.symbolsTable.render else c

/-- Runs the command. A session that cannot start says nothing but in its exit code. -/
def run (a : AnalyzeArguments) (silent : Bool) (programs : Programs) (decoder : Decoder)
    (tree : FileTree) : CommandResult :=
  match a.inputs? with
  | none =>
    ({} : CommandResult).failure
      "give either -1 EXECUTABLE TRACE... or -e EXT -c EXT EXECUTABLE..."
  | some inputs =>
    let workspace : Workspace :=
      { scratch := { tree, keep := a.keepTemps }, warnings := a.warnings }
    match (Session.start (a.config inputs) programs decoder).run workspace with
    | (.error e, workspace) => { exitCode := 1, workspace, error := some e }
    | (.ok session, workspace) =>
      match session.run.run workspace with
      | (.error e, workspace) =>
        ({ workspace, error := some e } : CommandResult).failure "analysis failed"
      | (.ok report, workspace) => a.present silent report { workspace }

end AnalyzeArguments

namespace Arguments

/-- The summary of the metrics, if it was asked for. The run took some seconds. -/
def metricsText (a : Arguments) (c : CommandResult) (seconds : Float) : String :=
  if a.metrics then
    match c.report with
    | some r => (r.record seconds {}).summary
    | none => ({} : Metrics).summary
  else ""

end Arguments

def versionText : String := "xcov 0.1.0\n"

def helpText : String :=
  "Instruction and branch coverage for cross-compiled embedded binaries\n\n" ++
  "Usage: xcov [--metrics] [-v | --silent] analyze -T TARGET -s FILE [OPTIONS] [FILE]...\n\n" ++
  "  -T, --target TARGET             target triple, e.g. sparc-rtems6\n" ++
  "  -s, --symbols FILE              file listing the symbols to analyze, one per line\n" ++
  "  -f, --format FORMAT             trace file format: spike (default) or pcs\n" ++
  "  -1, --single EXE                single executable, followed by its traces\n" ++
  "  -e, --executable-extension EXT  extension stripped from each executable\n" ++
  "  -c, --trace-extension EXT       extension appended to find its trace\n" ++
  "  -L, --library NAME              analyze this dynamic library\n" ++
  "      --dump-ext EXT              read <exe>.<EXT> listings\n" ++
  "  -j, --jobs N                    number of worker threads (0 = auto)\n" ++
  "      --keep-temps                keep disassembler output files\n" ++
  "      --symbols-table             print per-symbol statistics\n" ++
  "      --metrics                   show metrics summary after execution\n" ++
  "  -v, --verbose                   enable verbose output\n" ++
  "      --silent                    suppress output\n" ++
  "  -h, --help                      print help\n" ++
  "  -V, --version                   print version\n"

def UsageError.result (e : UsageError) : CommandResult :=
  match e with
  | .displayVersion => { stdout := versionText }
  | .displayHelp => { stdout := helpText }
  | e => { exitCode := e.exitCode, stderr := helpText }

end TraceCoverage

import TraceCoverage.Text.Scan
import TraceCoverage.Trace.Format

/-!
# Command-line arguments

The arguments are options, words and the name of the one command, `analyze`. Reading goes from left
to right and stops at the first fault. What was read last is only looked at when the next option
turns out to be a known one, so an unknown option counts before the fault in front of it. Which
options go together is looked at at the end.
-/

namespace TraceCoverage

open Text

inductive UsageError where
  | displayHelp
  | displayVersion
  | missingArguments
  | missingSubcommand
  | invalidSubcommand
  | unknownArgument
  | invalidValue
  | valueValidation
  | tooManyValues
  | argumentConflict
  | missingRequiredArgument
deriving DecidableEq, Repr

/-- Asking for help is no failure. -/
def UsageError.exitCode : UsageError → Nat
  | displayHelp | displayVersion => 0
  | _ => 2

namespace Arguments

/-! ## Options -/

inductive Opt where
  | metrics | verbose | silent | help | version
  | target | symbols | format | single | executableExtension | traceExtension | library
  | dumpExtension | jobs | keepTemps | symbolsTable
deriving DecidableEq, Repr

namespace Opt

def everywhere : List Opt := [metrics, verbose, silent, help]

def beforeCommand : List Opt := version :: everywhere

def ofAnalyze : List Opt :=
  [target, symbols, format, single, executableExtension, traceExtension, library, dumpExtension,
    jobs, keepTemps, symbolsTable] ++ everywhere

def long : Opt → String
  | metrics => "metrics"
  | verbose => "verbose"
  | silent => "silent"
  | help => "help"
  | version => "version"
  | target => "target"
  | symbols => "symbols"
  | format => "format"
  | single => "single"
  | executableExtension => "executable-extension"
  | traceExtension => "trace-extension"
  | library => "library"
  | dumpExtension => "dump-ext"
  | jobs => "jobs"
  | keepTemps => "keep-temps"
  | symbolsTable => "symbols-table"

def short? : Opt → Option Char
  | verbose => some 'v'
  | help => some 'h'
  | version => some 'V'
  | target => some 'T'
  | symbols => some 's'
  | format => some 'f'
  | single => some '1'
  | executableExtension => some 'e'
  | traceExtension => some 'c'
  | library => some 'L'
  | jobs => some 'j'
  | metrics | silent | dumpExtension | keepTemps | symbolsTable => none

def takesValue : Opt → Bool
  | target | symbols | format | single | executableExtension | traceExtension | library
  | dumpExtension | jobs => true
  | metrics | verbose | silent | help | version | keepTemps | symbolsTable => false

end Opt

/-- A decimal number of at most 64 bits, with at most one `+` before it. -/
def number? (value : String) : Option Nat :=
  let digits := (after? ['+'] value.toList).getD value.toList
  if !digits.isEmpty && digits.all Char.isDigit then
    let n := digits.foldl (fun n d => 10 * n + (d.toNat - 0x30)) 0
    if n < UInt64.size then some n else none
  else none

/-- The trace formats by the names that the command line has for them. -/
def format? (value : String) : Option TraceFormat :=
  match value with
  | "spike" => some .spike
  | "pcs" => some .pcs
  | _ => none

def valueFault? (o : Opt) (value : String) : Option UsageError :=
  match o with
  | .symbols | .single => if value.isEmpty then some .invalidValue else none
  | .format => if (format? value).isNone then some .invalidValue else none
  | .jobs => if (number? value).isNone then some .valueValidation else none
  | _ => none

/-! ## Reading -/

structure Given where
  /-- Options with their values, the newest first. A flag has the empty value. -/
  options : List (Opt × String) := []
  /-- Words that belong to no option, the newest first. -/
  words : List String := []
deriving DecidableEq, Repr

namespace Given

def has (g : Given) (o : Opt) : Bool := g.options.any (·.1 == o)

def value? (g : Given) (o : Opt) : Option String := g.options.lookup o

/-- Adds an option. Each can be given once, and two of them end the reading. -/
def add (g : Given) (o : Opt) (value : String) : Except UsageError Given :=
  if o = .help then .error .displayHelp
  else if o = .version then .error .displayVersion
  else if g.has o then .error .argumentConflict
  else
    match valueFault? o value with
    | some fault => .error fault
    | none => .ok { g with options := (o, value) :: g.options }

def addWord (g : Given) (word : String) : Except UsageError Given :=
  if word.isEmpty then .error .invalidValue else .ok { g with words := word :: g.words }

end Given

/-- What was read last and is not looked at yet. -/
inductive Pending where
  | nothing
  | option (o : Opt) (value : Option String)
  /-- Words in a row, the newest first. -/
  | words (words : List String)
deriving DecidableEq, Repr

def Given.settle (g : Given) : Pending → Except UsageError Given
  | .nothing => .ok g
  | .option _ none => .error .invalidValue
  | .option o (some value) => g.add o value
  | .words words => words.reverse.foldlM addWord g

def Given.addNext (g : Given) (pending : Pending) (o : Opt) (value : String) :
    Except UsageError Given :=
  (g.settle pending).bind fun g => g.add o value

def readLong (known : List Opt) (g : Given) (pending : Pending) (body : List Char) :
    Except UsageError (Given × Pending) :=
  let name := String.ofList (body.takeWhile (· != '='))
  let attached := (cut (· == '=') body).map fun (_, value) => String.ofList value
  match known.find? (·.long == name) with
  | none => .error .unknownArgument
  | some o =>
    match o.takesValue, attached with
    | true, some value => (g.addNext pending o value).map (·, .nothing)
    | true, none => (g.settle pending).map (·, .option o none)
    | false, some _ => .error .tooManyValues
    | false, none => (g.addNext pending o "").map (·, .nothing)

/-- Reads letters behind one dash: flags, and at the end at most one option with a value. What
follows such an option is its value, with or without `=` between. -/
def readShort (known : List Opt) (g : Given) (pending : Pending) :
    List Char → Except UsageError (Given × Pending)
  | [] => .ok (g, pending)
  | c :: cs =>
    match known.find? (·.short? == some c) with
    | none => .error .unknownArgument
    | some o =>
      if o.takesValue then
        match cs with
        | [] => (g.settle pending).map (·, .option o none)
        | cs => (g.addNext pending o (String.ofList ((after? ['='] cs).getD cs))).map (·, .nothing)
      else
        match g.addNext pending o "" with
        | .error e => .error e
        | .ok g => readShort known g .nothing cs

/-- An argument is read by how it starts. -/
inductive Shape where
  /-- `--` alone: only words follow. -/
  | escape
  | long (body : List Char)
  | short (body : List Char)
  | word
deriving DecidableEq, Repr

def Shape.ofArgument (argument : String) : Shape :=
  match argument.toList with
  | ['-', '-'] => escape
  | '-' :: '-' :: body => long body
  | ['-'] => word
  | '-' :: body => short body
  | _ => word

/-- Reads the arguments of the command. An option without its value takes the next argument, unless
that looks like an option. -/
def readCommand (g : Given) (pending : Pending) : List String → Except UsageError Given
  | [] => g.settle pending
  | argument :: rest =>
    match Shape.ofArgument argument with
    | .escape => (g.settle pending).bind fun g => rest.foldlM Given.addWord g
    | .long body =>
      match readLong Opt.ofAnalyze g pending body with
      | .error e => .error e
      | .ok (g, pending) => readCommand g pending rest
    | .short body =>
      match readShort Opt.ofAnalyze g pending body with
      | .error e => .error e
      | .ok (g, pending) => readCommand g pending rest
    | .word =>
      match pending with
      | .option o none => readCommand g (.option o (some argument)) rest
      | .words words => readCommand g (.words (argument :: words)) rest
      | pending =>
        match g.settle pending with
        | .error e => .error e
        | .ok g => readCommand g (.words [argument]) rest

/-! ## Options that go together -/

/-- Two options of which the first rules out the second. -/
def conflicts (g : Given) : Bool :=
  (g.has .silent && g.has .verbose) ||
    (g.has .single && (g.has .executableExtension || g.has .traceExtension))

/-- An option is missing: a required one, or one of two that need each other. -/
def lacks (g : Given) : Bool :=
  !g.has .target || !g.has .symbols || g.has .executableExtension != g.has .traceExtension

def check (g : Given) : Except UsageError Given :=
  if conflicts g then .error .argumentConflict
  else if lacks g then .error .missingRequiredArgument
  else .ok g

/-- The word after `help` may be the command, or `help` itself. -/
def readHelp : List String → UsageError
  | [] | ["analyze"] | ["help"] => .displayHelp
  | _ => .invalidSubcommand

/-- Reads what stands before the command, and then the command. -/
def readProgram (g : Given) : List String → Except UsageError (Given × Given)
  | [] => .error (if g.options.isEmpty then .missingArguments else .missingSubcommand)
  | argument :: rest =>
    match Shape.ofArgument argument with
    | .escape =>
      match rest with
      | [] => .error (if g.options.isEmpty then .missingArguments else .missingSubcommand)
      | word :: _ =>
        .error (if word = "analyze" ∨ word = "help" then .unknownArgument else .invalidSubcommand)
    | .long body =>
      match readLong Opt.beforeCommand g .nothing body with
      | .error e => .error e
      | .ok (g, _) => readProgram g rest
    | .short body =>
      match readShort Opt.beforeCommand g .nothing body with
      | .error e => .error e
      | .ok (g, _) => readProgram g rest
    | .word =>
      if argument = "analyze" then
        match (readCommand {} .nothing rest).bind check with
        | .error e => .error e
        | .ok command =>
          if g.has .silent && g.has .verbose then .error .argumentConflict
          else .ok (g, command)
      else .error (if argument = "help" then readHelp rest else .invalidSubcommand)

end Arguments

/-! ## The arguments that were meant -/

structure AnalyzeArguments where
  target : String
  symbols : String
  format : TraceFormat := .spike
  single : Option String := none
  executableExtension : Option String := none
  traceExtension : Option String := none
  library : Option String := none
  dumpExtension : Option String := none
  /-- How many workers may share the work, 0 for one on each processor. -/
  jobs : Nat := 0
  keepTemps : Bool := false
  symbolsTable : Bool := false
  files : List String := []
deriving DecidableEq, Repr

structure Arguments where
  metrics : Bool := false
  verbose : Bool := false
  silent : Bool := false
  analyze : AnalyzeArguments
deriving DecidableEq, Repr

namespace Arguments

def ofGiven (g : Given) : AnalyzeArguments where
  target := (g.value? .target).getD ""
  symbols := (g.value? .symbols).getD ""
  format := ((g.value? .format).bind format?).getD .spike
  single := g.value? .single
  executableExtension := g.value? .executableExtension
  traceExtension := g.value? .traceExtension
  library := g.value? .library
  dumpExtension := g.value? .dumpExtension
  jobs := ((g.value? .jobs).bind number?).getD 0
  keepTemps := g.has .keepTemps
  symbolsTable := g.has .symbolsTable
  files := g.words.reverse

def parse (arguments : List String) : Except UsageError Arguments :=
  (readProgram {} arguments).map fun (program, command) =>
    { metrics := program.has .metrics || command.has .metrics
      verbose := program.has .verbose || command.has .verbose
      silent := program.has .silent || command.has .silent
      analyze := ofGiven command }

end Arguments

end TraceCoverage

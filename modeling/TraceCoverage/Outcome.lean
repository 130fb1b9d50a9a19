import TraceCoverage.Text.Stream

/-!
# Warnings and outcomes

An error stops an operation. A warning is passed on to the user, and the work goes on.
-/

namespace TraceCoverage

inductive Warning where
  | sizeMismatch (expected actual : Nat)
  /-- The listing ended inside a symbol. -/
  | openEnded (symbol : String)
  /-- Nothing is left of a symbol without its padding. -/
  | noCode (symbol : String)
  | definedTwice (symbol file : String)
  | malformedLoadMapEntry (line : Nat) (text : String)
  | symbolNotFound (symbol : String)
  | emptySymbolList (path : String)
  | noTraces (executable : String)
  | traceMissed (trace executable : String)
  | notRemoved (path : String) (cause : ReadFailure)
deriving DecidableEq, Repr

namespace Warning

def message : Warning → String
  | sizeMismatch .. => "coverage map size mismatch, merging common prefix"
  | openEnded _ => "symbol ends the listing, assuming its last instruction is one byte"
  | noCode _ => "symbol has no code after trimming padding, skipping"
  | definedTwice .. => "symbol defined more than once, keeping the first definition"
  | malformedLoadMapEntry .. => "malformed load map entry"
  | symbolNotFound _ => "symbol not found in any executable"
  | emptySymbolList _ => "symbol list is empty"
  | noTraces _ => "no trace files given"
  | traceMissed .. => "trace hit no analyzed symbol"
  | notRemoved .. => "failed to remove temporary file"

def fields : Warning → List (String × String)
  | sizeMismatch expected actual =>
    [("expected", toString expected), ("actual", toString actual)]
  | openEnded symbol | noCode symbol | symbolNotFound symbol => [("symbol", symbol)]
  | definedTwice symbol file => [("symbol", symbol), ("file", file)]
  | malformedLoadMapEntry line text => [("line", toString line), ("text", text)]
  | emptySymbolList path => [("symbols", path)]
  | noTraces executable => [("executable", executable)]
  | traceMissed trace executable => [("trace", trace), ("executable", executable)]
  | notRemoved path cause => [("path", path), ("error", cause.message)]

end Warning

/-- What an operation on a state leaves behind, whether it succeeds or not. -/
structure Outcome (σ ε α : Type) where
  state : σ
  result : Except ε α
  warnings : List Warning := []

end TraceCoverage

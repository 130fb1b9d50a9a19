import TraceCoverage.Main
import TraceCoverage.Proofs.Executable.Relocation
import TraceCoverage.Proofs.Listing.Ending
import TraceCoverage.Proofs.Listing.Lookup
import TraceCoverage.Proofs.Run.Coherence
import TraceCoverage.Proofs.Run.Order
import TraceCoverage.Proofs.Run.Ranges
import TraceCoverage.Proofs.Run.Reanalysis
import TraceCoverage.Proofs.Run.Relocation
import TraceCoverage.Proofs.Run.Verdicts
import TraceCoverage.Proofs.Run.Wanted
import TraceCoverage.Proofs.Symbol.Coherence
import TraceCoverage.Proofs.Trace.Exact
import TraceCoverage.Proofs.Trace.Harts
import TraceCoverage.Proofs.Trace.Relocation
import TraceCoverage.Proofs.Run.Merging
import TraceCoverage.Proofs.Session.Reading
import TraceCoverage.Proofs.Run.Unexecuted
import TraceCoverage.Proofs.Run.Executed
import TraceCoverage.Proofs.Symbol.Layout
import TraceCoverage.Proofs.Symbol.Carrying
import TraceCoverage.Proofs.Run.History
import TraceCoverage.Proofs.Symbol.Growth
import TraceCoverage.Proofs.Run.Growth
import TraceCoverage.Proofs.Run.RangeReport
import TraceCoverage.Proofs.Run.Operations
import TraceCoverage.Proofs.Run.Staleness
import TraceCoverage.Proofs.Run.Retry
import TraceCoverage.Proofs.Symbol.Accounting
import TraceCoverage.Proofs.Run.Accounting
import TraceCoverage.Proofs.Run.Requesting
import TraceCoverage.Proofs.Symbol.MaximalRuns
import TraceCoverage.Proofs.Symbol.Filling
import TraceCoverage.Proofs.Listing.Tiling
import TraceCoverage.Proofs.Session.Scratch
import TraceCoverage.Proofs.Target.Bare
import TraceCoverage.Proofs.Listing.Grammar
import TraceCoverage.Proofs.Listing.Wrapping
import TraceCoverage.Proofs.Executable.Naming
import TraceCoverage.Proofs.Listing.Sources
import TraceCoverage.Proofs.Trace.Printed
import TraceCoverage.Proofs.Listing.Libraries
import TraceCoverage.Proofs.Target.Operands
import TraceCoverage.Proofs.Cli.Table

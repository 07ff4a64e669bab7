import Precompile.Main
import Precompile.Sources.Parsed
import Precompile.Proofs.OrderedMap
import Precompile.Proofs.Path.Exploration
import Precompile.Proofs.Path.Normal
import Precompile.Proofs.Build.CleanProgram
import Precompile.Proofs.Build.FailedCycle
import Precompile.Proofs.Build.Interleaving
import Precompile.Proofs.Build.LeftOver
import Precompile.Proofs.Program.Staleness
import Precompile.Proofs.Scanning.Closure
import Precompile.Proofs.Sources.History
import Precompile.Proofs.Sources.Snapshot
import Precompile.Proofs.Build.Passes
import Precompile.Proofs.CommandLine.Watch
import Precompile.Proofs.Route.Map
import Precompile.Proofs.Build.Versions
import Precompile.Proofs.Factory.Missing
import Precompile.Proofs.Build.Touching
import Precompile.Proofs.Route.Whole
import Precompile.Proofs.Factory.Renewal
import Precompile.Proofs.Build.Published
import Precompile.Proofs.Build.Idle
import Precompile.Proofs.Host.Mirror
import Precompile.Proofs.Scanning.Findings
import Precompile.Proofs.Build.Requests
import Precompile.Proofs.Build.Overrides
import Precompile.Proofs.Script.Bytewise
import Precompile.Proofs.Script.Appending
import Precompile.Proofs.Factory.Unreadable
import Precompile.Proofs.Config.Exclusion
import Precompile.Proofs.Script.Declarations
import Precompile.Proofs.Route.Static
import Precompile.Proofs.Factory.Decorated
import Precompile.Proofs.Scanning.Configuration
import Precompile.Proofs.Route.Walk
import Precompile.Proofs.Factory.Imported
import Precompile.Proofs.Path.Canonical
import Precompile.Proofs.Diagnostic.Placing
import Precompile.Proofs.Build.Markers
import Precompile.Proofs.Sources.Listing
import Precompile.Proofs.Sources.Refresh
import Precompile.Proofs.Sources.Additions
import Precompile.Proofs.Route.Entry
import Precompile.Proofs.Build.Roots
import Precompile.Proofs.Build.Places

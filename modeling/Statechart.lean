import Statechart.Action
import Statechart.Active.Basic
import Statechart.Active.Resolution
import Statechart.Bytes
import Statechart.Chart.Basic
import Statechart.Chart.Compile
import Statechart.Chart.Tree
import Statechart.Chart.Violation
import Statechart.Checkpoint
import Statechart.Configuration
import Statechart.Description.Basic
import Statechart.Description.Reader
import Statechart.Description.Writer
import Statechart.Digits
import Statechart.Draft
import Statechart.Event
import Statechart.Guard
import Statechart.Instant
import Statechart.Journal
import Statechart.Json.Basic
import Statechart.Json.Binary64
import Statechart.Json.Parser
import Statechart.Json.Printer
import Statechart.Json.Record
import Statechart.Path
import Statechart.Proofs.AcceptedRecords
import Statechart.Proofs.Active.Accepted
import Statechart.Proofs.Active.Complete
import Statechart.Proofs.Active.Legal
import Statechart.Proofs.Active.RoundTrip
import Statechart.Proofs.Call
import Statechart.Proofs.Chart.Breaches
import Statechart.Proofs.Chart.Intact
import Statechart.Proofs.Chart.Rules
import Statechart.Proofs.Chart.WellFormed
import Statechart.Proofs.Completion
import Statechart.Proofs.Delivery
import Statechart.Proofs.Description.RoundTrip
import Statechart.Proofs.Draft.Agreement
import Statechart.Proofs.Draft.Building
import Statechart.Proofs.Draft.Calls
import Statechart.Proofs.Entry.Coherent
import Statechart.Proofs.Entry.Contested
import Statechart.Proofs.Entry.Descent
import Statechart.Proofs.Entry.Exhausted
import Statechart.Proofs.Entry.Goals
import Statechart.Proofs.Entry.Listed
import Statechart.Proofs.Entry.Local
import Statechart.Proofs.Entry.Restored
import Statechart.Proofs.Entry.Tasks
import Statechart.Proofs.Entry.Transition
import Statechart.Proofs.Entry.Unbounded
import Statechart.Proofs.Entry.Upward
import Statechart.Proofs.Frame
import Statechart.Proofs.HistoryRestored
import Statechart.Proofs.Independence
import Statechart.Proofs.Json.Distinct
import Statechart.Proofs.Json.Record
import Statechart.Proofs.Legality
import Statechart.Proofs.Limit
import Statechart.Proofs.Lists
import Statechart.Proofs.Matching
import Statechart.Proofs.ParallelRoot
import Statechart.Proofs.Path
import Statechart.Proofs.Preview
import Statechart.Proofs.Resumption
import Statechart.Proofs.Run
import Statechart.Proofs.SelfTransition
import Statechart.Proofs.SeveralTargets
import Statechart.Proofs.Snapshot
import Statechart.Proofs.Sorted.Map
import Statechart.Proofs.Step.Domain
import Statechart.Proofs.Step.Microstep
import Statechart.Proofs.Step.Populated
import Statechart.Proofs.Step.Preservation
import Statechart.Proofs.Step.Raised
import Statechart.Proofs.Step.Rooted
import Statechart.Proofs.Step.Selection
import Statechart.Proofs.Tree.Addresses
import Statechart.Proofs.Tree.Climbing
import Statechart.Proofs.Tree.Declared
import Statechart.Proofs.Tree.Keys
import Statechart.Proofs.Tree.Layout
import Statechart.Proofs.Tree.Lineage
import Statechart.Proofs.Tree.References
import Statechart.Proofs.Turns
import Statechart.Proofs.Validation
import Statechart.Proofs.Value.Agreement
import Statechart.Proofs.Value.Canonical
import Statechart.Proofs.Value.Fits
import Statechart.Proofs.Value.KeyTree
import Statechart.Proofs.Value.Paths
import Statechart.Proofs.Visits
import Statechart.Service
import Statechart.Sorted.Map
import Statechart.Sorted.Set
import Statechart.StateValue
import Statechart.Step.Domain
import Statechart.Step.Entry
import Statechart.Step.Failure
import Statechart.Step.Macrostep
import Statechart.Step.Microstep
import Statechart.Step.Selection
import Statechart.Step.Unbounded
import Statechart.Tally.Basic
import Statechart.Tally.Condition
import Statechart.Tally.Effect
import Statechart.Text.Quoted
import Statechart.Text.Visible

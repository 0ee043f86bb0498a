import Gatekeeper.Error
import Gatekeeper.Gatehouse
import Gatekeeper.Proofs.Abandon
import Gatekeeper.Proofs.Account
import Gatekeeper.Proofs.Admission
import Gatekeeper.Proofs.Aftermath
import Gatekeeper.Proofs.Agreement
import Gatekeeper.Proofs.Alike
import Gatekeeper.Proofs.Barrier
import Gatekeeper.Proofs.Behind
import Gatekeeper.Proofs.Cache
import Gatekeeper.Proofs.Callers
import Gatekeeper.Proofs.Calls
import Gatekeeper.Proofs.Canonical
import Gatekeeper.Proofs.Completion
import Gatekeeper.Proofs.Deadline
import Gatekeeper.Proofs.Decision
import Gatekeeper.Proofs.Effects
import Gatekeeper.Proofs.Failure
import Gatekeeper.Proofs.Fair
import Gatekeeper.Proofs.Grammar
import Gatekeeper.Proofs.Halt
import Gatekeeper.Proofs.Hierarchy
import Gatekeeper.Proofs.History
import Gatekeeper.Proofs.Interchange
import Gatekeeper.Proofs.Interrupted
import Gatekeeper.Proofs.Journal
import Gatekeeper.Proofs.Lifecycle
import Gatekeeper.Proofs.Log
import Gatekeeper.Proofs.Loop
import Gatekeeper.Proofs.Marks
import Gatekeeper.Proofs.Miss
import Gatekeeper.Proofs.Move
import Gatekeeper.Proofs.Noninterference
import Gatekeeper.Proofs.Numbers
import Gatekeeper.Proofs.Pacing
import Gatekeeper.Proofs.Passes
import Gatekeeper.Proofs.Permits
import Gatekeeper.Proofs.Progress
import Gatekeeper.Proofs.Properties
import Gatekeeper.Proofs.Provenance
import Gatekeeper.Proofs.Refresh
import Gatekeeper.Proofs.Renewal
import Gatekeeper.Proofs.Rest
import Gatekeeper.Proofs.Roster
import Gatekeeper.Proofs.RoundTrip
import Gatekeeper.Proofs.Schedule
import Gatekeeper.Proofs.Sequential
import Gatekeeper.Proofs.Shutdown
import Gatekeeper.Proofs.SingleFlight
import Gatekeeper.Proofs.Snapshot
import Gatekeeper.Proofs.SpanText
import Gatekeeper.Proofs.Spared
import Gatekeeper.Proofs.Staff
import Gatekeeper.Proofs.Staleness
import Gatekeeper.Proofs.Standing
import Gatekeeper.Proofs.Step
import Gatekeeper.Proofs.Table
import Gatekeeper.Proofs.Text
import Gatekeeper.Proofs.Timeout
import Gatekeeper.Proofs.Toggles
import Gatekeeper.Proofs.Turnaround
import Gatekeeper.Proofs.View
import Gatekeeper.Proofs.Visits
import Gatekeeper.Proofs.Whitelist
import Gatekeeper.Proofs.Whole
import Gatekeeper.Proofs.Workers
import Gatekeeper.Scenario.Run
import Gatekeeper.Settings.Basic
import Gatekeeper.Wire.Identity

import LiveHighlight.Session.Run
import LiveHighlight.Proofs.Grammar.Closed
import LiveHighlight.Proofs.Parse.Tree
import LiveHighlight.Proofs.Parse.Reading
import LiveHighlight.Proofs.Parse.Termination
import LiveHighlight.Proofs.Parse.Coverage
import LiveHighlight.Proofs.Schedule.Holders
import LiveHighlight.Proofs.Session.Course
import LiveHighlight.Proofs.Session.WorkerAccounting
import LiveHighlight.Proofs.Session.Reentry
import LiveHighlight.Proofs.Highlight.Progress
import LiveHighlight.Proofs.Session.Attendance
import LiveHighlight.Proofs.Session.Highlighting
import LiveHighlight.Proofs.Session.ScheduleChanges
import LiveHighlight.Proofs.Session.Barring
import LiveHighlight.Proofs.Session.SlotOwnership
import LiveHighlight.Proofs.Session.Faults
import LiveHighlight.Proofs.Session.Fairness
import LiveHighlight.Proofs.Highlight.Fidelity
import LiveHighlight.Proofs.Highlight.Image
import LiveHighlight.Proofs.Document.Reload
import LiveHighlight.Proofs.Document.Snapshots
import LiveHighlight.Proofs.Session.Freshness
import LiveHighlight.Proofs.Session.Fates
import LiveHighlight.Proofs.Parse.Language
import LiveHighlight.Proofs.Parse.Locality
import LiveHighlight.Proofs.Parse.Refusals
import LiveHighlight.Proofs.Parse.Faults
import LiveHighlight.Proofs.Session.Disposal
import LiveHighlight.Proofs.Session.Disabling
import LiveHighlight.Proofs.Parse.Presentation
import LiveHighlight.Proofs.Parse.Budgets
import LiveHighlight.Proofs.Grammar.Declarations
import LiveHighlight.Proofs.Grammar.RoundTrip
import LiveHighlight.Proofs.Session.Starting
import LiveHighlight.Proofs.Session.Reports
import LiveHighlight.Proofs.Session.Isolation
import LiveHighlight.Proofs.Text.Places
import LiveHighlight.Proofs.Parse.Nesting
import LiveHighlight.Proofs.Session.Editing
import LiveHighlight.Proofs.Session.WorkerSteps
import LiveHighlight.Proofs.Terminal.Matching
import LiveHighlight.Proofs.Grammar.Registration
import LiveHighlight.Proofs.Parse.Replacement

import FilterLists.Daemon
import FilterLists.LiveService
import FilterLists.Main
import FilterLists.Record
import FilterLists.Store.Saving
import FilterLists.Timeline
import FilterLists.Proofs.Store.Names
import FilterLists.Proofs.Store.Effects
import FilterLists.Proofs.Consistency
import FilterLists.Proofs.Registry.Undated
import FilterLists.Proofs.Agreement
import FilterLists.Proofs.Refresh.Verdict
import FilterLists.Proofs.Registry.Merge
import FilterLists.Proofs.Refresh.Following
import FilterLists.Proofs.Refresh.Progress
import FilterLists.Proofs.Independence
import FilterLists.Proofs.Registry.Numbering
import FilterLists.Proofs.Identity
import FilterLists.Proofs.Synchrony
import FilterLists.Proofs.Subscriptions
import FilterLists.Proofs.Permanence
import FilterLists.Proofs.Refresh.Unchanged
import FilterLists.Proofs.Freshness
import FilterLists.Proofs.Overlap
import FilterLists.Proofs.Compilation
import FilterLists.Proofs.Startup
import FilterLists.Proofs.Text.Utf8
import FilterLists.Proofs.Toml.Quoted
import FilterLists.Proofs.Toml.Scalar
import FilterLists.Proofs.Toml.Reader
import FilterLists.Proofs.FileTree.Node
import FilterLists.Proofs.FileTree.Operations
import FilterLists.Proofs.Config.Document
import FilterLists.Proofs.Config.File
import FilterLists.Proofs.Config.Validity
import FilterLists.Proofs.Session.Run
import FilterLists.Proofs.Session.Cache
import FilterLists.Proofs.Session.Edit
import FilterLists.Proofs.Session.Saving
import FilterLists.Proofs.Session.Ids
import FilterLists.Proofs.Session.Opening
import FilterLists.Proofs.Session.Acceptance
import FilterLists.Proofs.Session.Listing
import FilterLists.Proofs.Session.Refinement
import FilterLists.Proofs.Daemon.Names
import FilterLists.Proofs.Daemon.Shutdown
import FilterLists.Proofs.Landing
import FilterLists.Proofs.Config.RoundTrip
import FilterLists.Proofs.Config.RuntimeNames
import FilterLists.Proofs.Repetition
import FilterLists.Proofs.Saving.Atomicity
import FilterLists.Proofs.Saving.Undisturbed
import FilterLists.Proofs.Job.Requests
import FilterLists.Proofs.Job.Ending
import FilterLists.Proofs.Job.Spacing
import FilterLists.Proofs.Linearizability
import FilterLists.Proofs.Leftovers
import FilterLists.Proofs.Convergence
import FilterLists.Proofs.Parsing
import FilterLists.Proofs.Counting
import FilterLists.Proofs.Detection
import FilterLists.Proofs.Title
import FilterLists.Proofs.Downloading
import FilterLists.Proofs.Failing
import FilterLists.Proofs.Isolation
import FilterLists.Proofs.Layout
import FilterLists.Proofs.CanonicalRules
import FilterLists.Proofs.Registry.Deduplication
import FilterLists.Proofs.Registry.IdFloor
import FilterLists.Proofs.Timeline.Completion

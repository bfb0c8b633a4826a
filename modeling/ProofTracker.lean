import ProofTracker.Catalog.Reach
import ProofTracker.Main
import ProofTracker.Session.Repository
import ProofTracker.Proofs.Sorted
import ProofTracker.Proofs.Text.Lines
import ProofTracker.Proofs.Document.Normal
import ProofTracker.Proofs.Document.Line
import ProofTracker.Proofs.Document.Fields
import ProofTracker.Proofs.Document.RoundTrip
import ProofTracker.Proofs.Catalog.Graph
import ProofTracker.Proofs.Catalog.Order
import ProofTracker.Proofs.Catalog.Linear
import ProofTracker.Proofs.Catalog.Cycle
import ProofTracker.Proofs.Catalog.Reach
import ProofTracker.Proofs.Catalog.Between
import ProofTracker.Proofs.Catalog.Interpose
import ProofTracker.Proofs.Catalog.Sound
import ProofTracker.Proofs.Lifecycle
import ProofTracker.Proofs.Catalog.Eligible
import ProofTracker.Proofs.Split.Labels
import ProofTracker.Proofs.Split.Plan
import ProofTracker.Proofs.Blueprint.Put
import ProofTracker.Proofs.Split.Chain
import ProofTracker.Proofs.Blueprint.Sound
import ProofTracker.Proofs.Blueprint.Run
import ProofTracker.Proofs.Blueprint.Split
import ProofTracker.Proofs.Blueprint.Work
import ProofTracker.Proofs.Blueprint.Reload
import ProofTracker.Proofs.Session.Host
import ProofTracker.Proofs.Session.Synced
import ProofTracker.Proofs.Session.Run
import ProofTracker.Proofs.Blueprint.Progress
import ProofTracker.Proofs.Blueprint.Batch
import ProofTracker.Proofs.Blueprint.History
import ProofTracker.Proofs.Catalog.Grounded
import ProofTracker.Proofs.Blueprint.Grounded
import ProofTracker.Proofs.Session.Claim
import ProofTracker.Proofs.Session.Started
import ProofTracker.Proofs.Blueprint.Waiting
import ProofTracker.Proofs.Blueprint.Ancestry
import ProofTracker.Proofs.Document.Canonical
import ProofTracker.Proofs.Json.Token
import ProofTracker.Proofs.Json.Value
import ProofTracker.Proofs.Json.Records
import ProofTracker.Proofs.Json.Front
import ProofTracker.Proofs.Journal.Entry
import ProofTracker.Proofs.Session.Replay
import ProofTracker.Proofs.Session.Journal
import ProofTracker.Proofs.Session.Append
import ProofTracker.Proofs.Catalog.Search
import ProofTracker.Proofs.Blueprint.Offers
import ProofTracker.Proofs.Blueprint.OneByOne
import ProofTracker.Proofs.Catalog.Moves
import ProofTracker.Proofs.Document.Reading
import ProofTracker.Proofs.Document.Append
import ProofTracker.Proofs.Document.Commute
import ProofTracker.Proofs.Document.Rearrange
import ProofTracker.Proofs.Blueprint.Again
import ProofTracker.Proofs.Session.Summary
import ProofTracker.Proofs.Document.Settled
import ProofTracker.Proofs.Split.Numbering
import ProofTracker.Proofs.Catalog.Queue
import ProofTracker.Proofs.Catalog.Peeling

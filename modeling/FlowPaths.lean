import FlowPaths.Record
import FlowPaths.Session.Step
import FlowPaths.Proofs.Enumeration.SimplePaths
import FlowPaths.Proofs.Enumeration.Merging
import FlowPaths.Proofs.Enumeration.PathLimit
import FlowPaths.Proofs.Enumeration.Workers
import FlowPaths.Proofs.Enumeration.Schedules
import FlowPaths.Proofs.Enumeration.Containment
import FlowPaths.Proofs.Session.MemoryGraphs
import FlowPaths.Proofs.Graph.StoredView
import FlowPaths.Proofs.Graph.Loading
import FlowPaths.Proofs.Enumeration.Agreement
import FlowPaths.Proofs.Search.Polling
import FlowPaths.Proofs.Enumeration.Cancellation
import FlowPaths.Proofs.Graph.RoundTrip
import FlowPaths.Proofs.Search.Restoration
import FlowPaths.Proofs.Graph.Idempotence
import FlowPaths.Proofs.Enumeration.History
import FlowPaths.Proofs.Search.Depth
import FlowPaths.Proofs.Enumeration.DepthBound
import FlowPaths.Proofs.Search.Removal
import FlowPaths.Proofs.Search.LooseEnds
import FlowPaths.Proofs.Enumeration.Preconditions
import FlowPaths.Proofs.Search.Locality
import FlowPaths.Proofs.Graph.Filling
import FlowPaths.Proofs.Graph.Acceptance
import FlowPaths.Proofs.Graph.Replacement
import FlowPaths.Proofs.Graph.FailedImport
import FlowPaths.Proofs.Graph.Merge
import FlowPaths.Proofs.Graph.Appending
import FlowPaths.Proofs.Graph.Loss
import FlowPaths.Proofs.Graph.Spanning
import FlowPaths.Proofs.Session.Walks
import FlowPaths.Proofs.Report.Reading
import FlowPaths.Proofs.Search.Moves
import FlowPaths.Proofs.Search.Termination
import FlowPaths.Proofs.Search.Invariant

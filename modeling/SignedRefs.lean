import SignedRefs.Network.Announcing
import SignedRefs.Network.Fetching
import SignedRefs.Proofs.Cbor.Canonical
import SignedRefs.Proofs.Manifest.Rereading
import SignedRefs.Proofs.Patch.Agreement
import SignedRefs.Proofs.Patch.Growth
import SignedRefs.Proofs.Patch.Lasting
import SignedRefs.Proofs.Store.Authenticity
import SignedRefs.Proofs.Store.Backends
import SignedRefs.Proofs.Store.Delivery
import SignedRefs.Proofs.Store.Independence
import SignedRefs.Proofs.Network.Agreement
import SignedRefs.Proofs.Network.Announcing
import SignedRefs.Proofs.Network.Convergence
import SignedRefs.Proofs.Network.Runs
import SignedRefs.Proofs.Sync.FirstContact
import SignedRefs.Report
import SignedRefs.Sync.MessageText
import SignedRefs.Tracking.PolicyFile
import SignedRefs.Proofs.Sync.Fetching
import SignedRefs.Proofs.Change.Rereading
import SignedRefs.Proofs.Record.Kinds
import SignedRefs.Proofs.Remote.Bindings
import SignedRefs.Proofs.Graph.Recording
import SignedRefs.Proofs.Tracking.Saving
import SignedRefs.Proofs.Node.Numbering
import SignedRefs.Proofs.Node.OnTop
import SignedRefs.Proofs.Patch.Ties
import SignedRefs.Proofs.Sync.Cutting
import SignedRefs.Proofs.Sync.Outcomes
import SignedRefs.Proofs.Sync.Retrying
import SignedRefs.Proofs.Tracking.LastDecision

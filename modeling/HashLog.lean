import HashLog.Bytes.EndianLaws
import HashLog.Exchange.Json
import HashLog.Exchange.Session
import HashLog.Exchange.Wire
import HashLog.Replica.Cluster
import HashLog.Sample.Chain
import HashLog.Store.Convergence
import HashLog.Proofs.Cbor.Heads
import HashLog.Proofs.Number.Narrowing
import HashLog.Proofs.Cbor.Values
import HashLog.Proofs.Exchange.Encodings
import HashLog.Proofs.Graph.Edges
import HashLog.Proofs.Graph.Frontiers
import HashLog.Proofs.Graph.Shown
import HashLog.Proofs.Graph.Indexed
import HashLog.Proofs.Graph.Rescans
import HashLog.Proofs.Record.Canonical
import HashLog.Proofs.Store.Commits
import HashLog.Proofs.Store.MemoryCommits
import HashLog.Proofs.Store.TableCommits
import HashLog.Proofs.Store.MemoryWrites
import HashLog.Proofs.Store.TableWrites
import HashLog.Proofs.Store.Views
import HashLog.Proofs.Store.Ledgers
import HashLog.Proofs.Store.Listings
import HashLog.Proofs.Store.Cutoffs
import HashLog.Proofs.Replica.Verified
import HashLog.Proofs.Replica.Fleet
import HashLog.Proofs.Replica.Configurations
import HashLog.Proofs.Replica.Overtaking
import HashLog.Proofs.Replica.Numbering
import HashLog.Proofs.Exchange.Answers
import HashLog.Proofs.Exchange.Backends
import HashLog.Proofs.Exchange.Divergence
import HashLog.Proofs.Exchange.Links
import HashLog.Proofs.Exchange.Progress
import HashLog.Proofs.Exchange.Lifecycles
import HashLog.Proofs.Exchange.Overlays
import HashLog.Proofs.Exchange.Economy
import HashLog.Proofs.Exchange.Holdings
import HashLog.Proofs.Exchange.Rejections
import HashLog.Proofs.Exchange.Emissions
import HashLog.Proofs.Exchange.Backing
import HashLog.Proofs.Exchange.Interleavings
import HashLog.Proofs.Exchange.ChainOffers
import HashLog.Proofs.Graph.Components
import HashLog.Proofs.Exchange.Unsigned
import HashLog.Proofs.Exchange.Comparisons
import HashLog.Proofs.Network.Deliveries

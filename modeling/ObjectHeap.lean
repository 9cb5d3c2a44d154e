import ObjectHeap.Arguments
import ObjectHeap.Main
import ObjectHeap.Proofs.Ancestry
import ObjectHeap.Proofs.ArenaScripts
import ObjectHeap.Proofs.Balance
import ObjectHeap.Proofs.BlockSizes
import ObjectHeap.Proofs.Calls
import ObjectHeap.Proofs.CellScripts
import ObjectHeap.Proofs.Commands
import ObjectHeap.Proofs.Comparison
import ObjectHeap.Proofs.Draining
import ObjectHeap.Proofs.Enumeration
import ObjectHeap.Proofs.Fitting
import ObjectHeap.Proofs.Footprint
import ObjectHeap.Proofs.FrozenSets
import ObjectHeap.Proofs.Growth
import ObjectHeap.Proofs.Histories
import ObjectHeap.Proofs.Idempotence
import ObjectHeap.Proofs.LookupOrder
import ObjectHeap.Proofs.Occupancy
import ObjectHeap.Proofs.Rehashing
import ObjectHeap.Proofs.Releasing
import ObjectHeap.Proofs.SequenceRuns
import ObjectHeap.Proofs.SizeHints
import ObjectHeap.Proofs.SlotTable
import ObjectHeap.Proofs.StoredKeys
import ObjectHeap.Proofs.TableScripts
import ObjectHeap.Proofs.TupleHashes
import ObjectHeap.Proofs.Walks
import ObjectHeap.Proofs.Words
import ObjectHeap.Proofs.Workloads

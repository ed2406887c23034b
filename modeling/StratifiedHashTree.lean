import StratifiedHashTree.Prog
import StratifiedHashTree.Tree
import StratifiedHashTree.Paths
import StratifiedHashTree.Merkle
import StratifiedHashTree.Maps
import StratifiedHashTree.Error
import StratifiedHashTree.Formula
import StratifiedHashTree.FormulaTree
import StratifiedHashTree.Entry
import StratifiedHashTree.Storage
import StratifiedHashTree.Cache
import StratifiedHashTree.Query
import StratifiedHashTree.Slate
import StratifiedHashTree.Sample
import StratifiedHashTree.History
import StratifiedHashTree.Generation
import StratifiedHashTree.Loading
import StratifiedHashTree.Lookup
import StratifiedHashTree.Runs
import StratifiedHashTree.MemKVS
import StratifiedHashTree.Device
import StratifiedHashTree.Files
import StratifiedHashTree.Serialize
import StratifiedHashTree.BlockStorage
import StratifiedHashTree.Backend
import StratifiedHashTree.Unfold
import StratifiedHashTree.Append
import StratifiedHashTree.Rollback
import StratifiedHashTree.Snapshots
import StratifiedHashTree.HashInputs
import StratifiedHashTree.Samples
import StratifiedHashTree.Differences
import StratifiedHashTree.Faults
import StratifiedHashTree.Simulation
import StratifiedHashTree.Requests
import StratifiedHashTree.Mirror
import StratifiedHashTree.Readers
import StratifiedHashTree.FileDevice
import StratifiedHashTree.Decoding
import StratifiedHashTree.Booting
import StratifiedHashTree.Numbered
import StratifiedHashTree.Malformed
import StratifiedHashTree.RocksDB
import StratifiedHashTree.Database
import StratifiedHashTree.FailingDB
import StratifiedHashTree.Prefixes
import StratifiedHashTree.Serving
import StratifiedHashTree.Isolation
import StratifiedHashTree.Outdated
import StratifiedHashTree.Erasure
import StratifiedHashTree.Ledger
import StratifiedHashTree.Traversal
import StratifiedHashTree.Records
import StratifiedHashTree.Inspect
import StratifiedHashTree.Distance
import StratifiedHashTree.Links
import StratifiedHashTree.Circles
import StratifiedHashTree.Fragile
import StratifiedHashTree.Interrupted
import StratifiedHashTree.Pairing
import StratifiedHashTree.Existence
import StratifiedHashTree.Decomposition
import StratifiedHashTree.Limits
import StratifiedHashTree.Lockstep
import StratifiedHashTree.Costs
import StratifiedHashTree.Branches
import StratifiedHashTree.Hosting
import StratifiedHashTree.FileSlates
import StratifiedHashTree.Tenants
import StratifiedHashTree.Pruned
import StratifiedHashTree.Binding
import StratifiedHashTree.Traffic
import StratifiedHashTree.Flaky
import StratifiedHashTree.Orphans
import StratifiedHashTree.Unsteady
import StratifiedHashTree.Attempts
import StratifiedHashTree.Contents
import StratifiedHashTree.Verifiers
import StratifiedHashTree.Replicas
import StratifiedHashTree.Garbled

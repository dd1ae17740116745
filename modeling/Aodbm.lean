import Aodbm.Lib.Program
import Aodbm.Lib.Records
import Aodbm.Lib.History
import Aodbm.Lib.VersionStore
import Aodbm.Data
import Aodbm.Io
import Aodbm.Tree
import Aodbm.Descent
import Aodbm.Descents
import Aodbm.Pending
import Aodbm.LeafUpdate
import Aodbm.BranchUpdate
import Aodbm.NodeFormat
import Aodbm.NodeUpdates
import Aodbm.TreeUpdate
import Aodbm.Row
import Aodbm.Operations
import Aodbm.Ancestry
import Aodbm.Run
import Aodbm.Reads
import Aodbm.Snapshots
import Aodbm.Commits
import Aodbm.Ancestors
import Aodbm.Calls
import Aodbm.ListInvariant
import Aodbm.HashGrowth
import Aodbm.Scan
import Aodbm.Changeset
import Aodbm.Mmap
import Aodbm.Locks
import Aodbm.Rwlock
import Aodbm.Appends
import Aodbm.Linear
import Aodbm.SharedCalls
import Aodbm.MappedReads
import Aodbm.SharedMap
import Aodbm.SharedStore
import Aodbm.SharedStream
import Aodbm.Lib.Traces
import Aodbm.Lib.Atomicity
import Aodbm.Costs
import Aodbm.Lib.Splits
import Aodbm.Occupancy
import Aodbm.Sharing
import Aodbm.Recovery
import Aodbm.Refinement
import Aodbm.Commit
import Aodbm.Iteration
import Aodbm.Blocks
import Aodbm.Hosts
import Aodbm.BlockLength
import Aodbm.Diff
import Aodbm.Merge
import Aodbm.Sessions
import Aodbm.Crashes
import Aodbm.Stores

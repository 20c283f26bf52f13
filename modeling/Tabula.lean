import Tabula.Wal.Corruption
import Tabula.SsTable.Damaged
import Tabula.Levels.Runs
import Tabula.Levels.Disjoint
import Tabula.Levels.PartRead
import Tabula.Lsm.CompactReads
import Tabula.Lsm.CompactCrash
import Tabula.Lsm.EmptyFlush
import Tabula.Lsm.DurableWrites
import Tabula.Lsm.VisibleWrites
import Tabula.Lsm.L0Order
import Tabula.Lsm.Sequential
import Tabula.Lsm.InsertOrder
import Tabula.Lsm.RestartOrder
import Tabula.Lsm.RecoveredLists
import Tabula.Lsm.TrackedFiles
import Tabula.Lsm.FailedFlush
import Tabula.Lsm.Stamps
import Tabula.Lsm.Snapshots
import Tabula.Lsm.DeletedFiles
import Tabula.Lsm.StableFiles
import Tabula.Lsm.PowerLoss
import Tabula.Lsm.StoredValues
import Tabula.SsTable.SparseIndex
import Tabula.Lsm.Oversized
import Tabula.Lsm.ClockNames
import Tabula.Lsm.Atomicity
import Tabula.Lsm.Progress
import Tabula.Lsm.Genuine
import Tabula.Lsm.Linearizable
import Tabula.Lsm.Memory
import Tabula.Lsm.OneClient
import Tabula.Lsm.Resilient
import Tabula.Lsm.Space

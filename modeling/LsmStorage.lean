import LsmStorage.PalfEntries
import LsmStorage.PalfMetaEntry
import LsmStorage.PalfFlatStore
import LsmStorage.PalfBlockRange
import LsmStorage.PalfRestarts
import LsmStorage.ReplaySlices
import LsmStorage.HashGroupByReopen
import LsmStorage.OperatorPlan
import LsmStorage.RingBufferFifo
import LsmStorage.BufferedWriter
import LsmStorage.ReplayBounds
import LsmStorage.PhysicalPlan
import LsmStorage.GroupByPlan
import LsmStorage.SelectRewrite
import LsmStorage.QueryEngineScans
import LsmStorage.MemtableIsolation
import LsmStorage.MemtableScan
import LsmStorage.MemtableInvariants
import LsmStorage.MvccUndo
import LsmStorage.MvccRowLock
import LsmStorage.FreezeHistory
import LsmStorage.SSTableMetaCodec
import LsmStorage.SSTableStatistics
import LsmStorage.KvCache
import LsmStorage.CommonLru
import LsmStorage.SchemaNames
import LsmStorage.SchemaHistory
import LsmStorage.TabletDirectory
import LsmStorage.DdlTables
import LsmStorage.PlainReadEvent
import LsmStorage.PlainResult
import LsmStorage.MysqlSequence
import LsmStorage.SessionDatabase
import LsmStorage.Connections
import LsmStorage.ValueOwnership
import LsmStorage.TupleCells
import LsmStorage.MemPool
import LsmStorage.ThreadPoolTasks
import LsmStorage.CascadePlan
import LsmStorage.Bitmap
import LsmStorage.LowerBound
import LsmStorage.IniCalls

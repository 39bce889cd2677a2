import Taihu.Lib.SortedMap
import Taihu.Lib.Machine
import Taihu.Layout
import Taihu.Records
import Taihu.Cache
import Taihu.Segments
import Taihu.Lib.Span
import Taihu.Lib.Bump
import Taihu.System
import Taihu.Store
import Taihu.Storage
import Taihu.FreePool
import Taihu.Recovery
import Taihu.Frame
import Taihu.Shape
import Taihu.Duty
import Taihu.CacheCoherence
import Taihu.AliveCount
import Taihu.AllocatorLock
import Taihu.StateMachine
import Taihu.Reclamation
import Taihu.Sequential
import Taihu.Lib.Recency
import Taihu.CacheOrder
import Taihu.BatchDelete
import Taihu.BatchPut
import Taihu.GetStream
import Taihu.GetChunks
import Taihu.GetDiscipline
import Taihu.Connection
import Taihu.Multiplex
import Taihu.Dispatch
import Taihu.DispatchSafety
import Taihu.StreamTable
import Taihu.ShmStream
import Taihu.ShmAnswers
import Taihu.ShmDiscipline
import Taihu.ShmPool
import Taihu.ShmIsolation
import Taihu.Protocol
import Taihu.ShmBytes
import Taihu.Lib.Overwrite
import Taihu.WriteTasks
import Taihu.PutWriter
import Taihu.BatchReader
import Taihu.Lib.Trace
import Taihu.PutAllocation
import Taihu.ShmPayloads
import Taihu.Lib.Memo
import Taihu.ClusterConns
import Taihu.CompletionPump
import Taihu.PumpLedger
import Taihu.PumpSafety
import Taihu.ClusterDelete
import Taihu.ReadAgreement
import Taihu.AppendBatch
import Taihu.GetRefs
import Taihu.Reserve
import Taihu.InDevice
import Taihu.AllocationGeometry
import Taihu.IndexKeys
import Taihu.SourceFallback
import Taihu.CacheHistory
import Taihu.SlicePool
import Taihu.BatchAllocation
import Taihu.BatchLookup
import Taihu.Enumeration
import Taihu.Uring
import Taihu.ClusterBatch
import Taihu.KeySpace
import Taihu.Backing
import Taihu.SegmentStates
import Taihu.Extents
import Taihu.Lib.Learning
import Taihu.References
import Taihu.DeviceBytes
import Taihu.Placing
import Taihu.Transfers
import Taihu.Readings
import Taihu.Pinned
import Taihu.Contents
import Taihu.Lib.Moments
import Taihu.Histories
import Taihu.Updates
import Taihu.Lib.Progress
import Taihu.Returning
import Taihu.Lib.Volume
import Taihu.Capacity
import Taihu.ClusterGenuine
import Taihu.Lib.Completion
import Taihu.LibAIO

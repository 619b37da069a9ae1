import Yaffs.Tally
import Yaffs.Words
import Yaffs.Ecc
import Yaffs.Paging
import Yaffs.Acyclic
import Yaffs.Device
import Yaffs.Block
import Yaffs.Accounting
import Yaffs.Erasure
import Yaffs.Writing
import Yaffs.Tnode
import Yaffs.Object
import Yaffs.Ownership
import Yaffs.Header
import Yaffs.Gc
import Yaffs.Invariant
import Yaffs.Collect
import Yaffs.Delete
import Yaffs.File
import Yaffs.Namespace
import Yaffs.Ties
import Yaffs.Calm
import Yaffs.Evolve
import Yaffs.Checkpt
import Yaffs.Run
import Yaffs.Lifetime
import Yaffs.Caching
import Yaffs.Flushing
import Yaffs.Entries
import Yaffs.CacheRun
import Yaffs.LiveList
import Yaffs.Moves
import Yaffs.Shifts
import Yaffs.Listing
import Yaffs.Summary
import Yaffs.Stream
import Yaffs.CheckptSpace
import Yaffs.Replay
import Yaffs.ScanOrder
import Yaffs.Offset
import Yaffs.Compat
import Yaffs.Collector
import Yaffs.Retry
import Yaffs.Sparing
import Yaffs.Progress
import Yaffs.OldestSeq
import Yaffs.OldestRun
import Yaffs.Retype
import Yaffs.DataWrite
import Yaffs.Rescan
import Yaffs.Forwards
import Yaffs.ObjectId
import Yaffs.Placing
import Yaffs.Serial
import Yaffs.CleanUp
import Yaffs.SoftDelete
import Yaffs.Counters
import Yaffs.Hanging
import Yaffs.Path
import Yaffs.PathText
import Yaffs.Handle
import Yaffs.Refcount
import Yaffs.Sharing
import Yaffs.DirHandle
import Yaffs.Unmount
import Yaffs.Transfer
import Yaffs.TnodePool
import Yaffs.ChunkTree
import Yaffs.Grouping
import Yaffs.Packing
import Yaffs.Agreement
import Yaffs.TagEcc
import Yaffs.PackedTags
import Yaffs.Memory
import Yaffs.Nameval
import Yaffs.AttrBounds
import Yaffs.Rewrite
import Yaffs.StoredName
import Yaffs.ByteOrder
import Yaffs.Endian
import Yaffs.Marshal
import Yaffs.Evidence
import Yaffs.LittleEndian
import Yaffs.CheckptRead
import Yaffs.CheckptTree
import Yaffs.CheckptRecords
import Yaffs.Saving
import Yaffs.Restoring
import Yaffs.RestoringObjs
import Yaffs.Restored
import Yaffs.Cutoff
import Yaffs.NorFlash
import Yaffs.NorCrash
import Yaffs.NorRun
import Yaffs.FileStore
import Yaffs.CachedStore
import Yaffs.Chunked
import Yaffs.FileBytes

import OsKernel.Cache.Accounting
import OsKernel.Cache.BlockLock
import OsKernel.Cache.CrashAtomic
import OsKernel.Cache.Durability
import OsKernel.Cache.Eviction
import OsKernel.Cache.Lru
import OsKernel.Common.Text
import OsKernel.Console.Lines
import OsKernel.Driver.Completion
import OsKernel.Fs.BlockAlloc
import OsKernel.Fs.Delete
import OsKernel.Fs.Descriptors
import OsKernel.Fs.Directory
import OsKernel.Fs.FileWrite
import OsKernel.Fs.Names.Walks
import OsKernel.Fs.SharedOffset
import OsKernel.Ipc.Delivery
import OsKernel.Ipc.Segments
import OsKernel.Mem.PageCount
import OsKernel.Mem.PageList
import OsKernel.Mem.Slab
import OsKernel.Paging.CopyOnWrite
import OsKernel.Paging.ForkCounts
import OsKernel.Paging.Heap
import OsKernel.Paging.LastHolder
import OsKernel.Paging.PageTable
import OsKernel.Paging.SwapRoundTrip
import OsKernel.Pipe.LockOrder
import OsKernel.Pipe.Wakeup
import OsKernel.Proc.Containers
import OsKernel.Proc.ForkBalance
import OsKernel.Proc.Kill

import FtlOs.Library.OrdMap
import FtlOs.Library.LeastFree
import FtlOs.Library.Run
import FtlOs.Library.Ring
import FtlOs.Library.Bitflags
import FtlOs.Library.LittleEndian
import FtlOs.Library.ByteMemory
import FtlOs.Library.Utf16
import FtlOs.Library.Utf8
import FtlOs.Library.ListHeap
import FtlOs.Library.Liveness
import FtlOs.Library.Token
import FtlOs.Util.Error
import FtlOs.Util.ListNode
import FtlOs.Util.Sync.RwSpinMutex
import FtlOs.Util.Sync.TickLock
import FtlOs.Util.Sync.QSpinLock.Defs
import FtlOs.Util.Sync.QSpinLock.Queue
import FtlOs.Util.Sync.QSpinLock.Exclusion
import FtlOs.Util.Sync.SeqMutex
import FtlOs.Util.Sync.Semaphore
import FtlOs.Util.Sync.RwSleepMutex.Defs
import FtlOs.Util.Sync.RwSleepMutex.Invariant
import FtlOs.Util.Sync.RwSleepMutex.Progress
import FtlOs.Util.Sync.SleepMutex
import FtlOs.Util.Time
import FtlOs.Kernel.Config
import FtlOs.Util.MaxHeap.Defs
import FtlOs.Util.MaxHeap.Order
import FtlOs.Util.MaxHeap.Trace
import FtlOs.Util.MaxHeap.Spec
import FtlOs.Util.RbTree.Defs
import FtlOs.Util.RbTree.Balance
import FtlOs.Util.RbTree.Order
import FtlOs.Util.RbTree.Spec
import FtlOs.Kernel.RangeMap.Defs
import FtlOs.Kernel.RangeMap.Invariant
import FtlOs.Kernel.RangeMap.Preservation
import FtlOs.Kernel.RangeMap.Search
import FtlOs.Kernel.RangeMap.Removal
import FtlOs.Kernel.RangeMap.Split
import FtlOs.Kernel.Process.Fd
import FtlOs.Kernel.Process.FdSpec
import FtlOs.Kernel.Process.FdLaw
import FtlOs.Kernel.Fs.Pipe
import FtlOs.Kernel.Fs.PipeDuplex
import FtlOs.Kernel.Memory.MmapHandler
import FtlOs.Kernel.Memory.ScManager
import FtlOs.Kernel.Memory.MapSegment
import FtlOs.Kernel.Syscall.Mmap
import FtlOs.Kernel.Syscall.Mprotect
import FtlOs.Kernel.Elf
import FtlOs.Kernel.Memory.Heap
import FtlOs.Kernel.Memory.Frame
import FtlOs.Kernel.Memory.PushArgs.Defs
import FtlOs.Kernel.Memory.PushArgs.Layout
import FtlOs.Kernel.Memory.PushArgs.Stack
import FtlOs.Kernel.Signal.Manager
import FtlOs.Kernel.Signal.Handle
import FtlOs.Kernel.Signal.RtQueue
import FtlOs.Kernel.Futex.Queue
import FtlOs.Kernel.Sync.EventBus
import FtlOs.Kernel.Timer.Sleep
import FtlOs.Kernel.Syscall.Futex
import FtlOs.Kernel.Syscall.Path
import FtlOs.Fat32.Lru
import FtlOs.Fat32.LruSpec
import FtlOs.Fat32.LruCalls
import FtlOs.Fat32.LruView
import FtlOs.Fat32.Block.Inner
import FtlOs.Fat32.Block.Manager
import FtlOs.Fat32.Block.Full
import FtlOs.Fat32.FatList.Manager
import FtlOs.Fat32.FatList.IntoDirty
import FtlOs.Fat32.FatList.Accounting
import FtlOs.Fat32.FatList.FreeAt
import FtlOs.Fat32.Inode.Cache
import FtlOs.Fat32.Inode.RawInode
import FtlOs.Fat32.Inode.File
import FtlOs.Fat32.Inode.Walk
import FtlOs.Fat32.Inode.Growth
import FtlOs.Fat32.Dir.Name
import FtlOs.Fat32.Dir.Xstr
import FtlOs.Fat32.Dir.Fold
import FtlOs.Fat32.Dir.Entry
import FtlOs.Fat32.Dir.Inode
import FtlOs.Fat32.Dir.Time
import FtlOs.Kernel.Process.Children
import FtlOs.Util.Rcu.Defs
import FtlOs.Util.Rcu.Inventory
import FtlOs.Util.Rcu.Safety

import ShellCore.Lib.Bytes
import ShellCore.Ext4.DirEntry
import ShellCore.Ext4.Checksum
import ShellCore.Ext4.DirBlock
import ShellCore.Ext4.Dir
import ShellCore.Ext4.DirEdit
import ShellCore.Lib.FiniteMap
import ShellCore.Ext4.DirRefine
import ShellCore.Ext4.Extent
import ShellCore.Ext4.ExtentNode
import ShellCore.Ext4.ExtentTree
import ShellCore.Ext4.ExtentInsert
import ShellCore.Ext4.ExtentOrder
import ShellCore.Ext4.ExtentPlan
import ShellCore.Ext4.ExtentEntry
import ShellCore.Ext4.Space
import ShellCore.Ext4.SpaceDesc
import ShellCore.Ext4.SpaceInv
import ShellCore.Ext4.SpaceRun
import ShellCore.Lib.OrdMap
import ShellCore.Mm.Address
import ShellCore.Mm.MapArea
import ShellCore.Mm.Heap
import ShellCore.Mm.Layout
import ShellCore.Mm.Unmap
import ShellCore.Mm.Populate
import ShellCore.Mm.HeapSpec
import ShellCore.Mm.Fault
import ShellCore.Mm.HeapFrame
import ShellCore.Lib.Actors
import ShellCore.Sync.RwLock
import ShellCore.Lib.Intervals
import ShellCore.Mm.FrameAllocator
import ShellCore.Lib.RedBlack
import ShellCore.Sched.RbTree
import ShellCore.Sched.RbArena
import ShellCore.Sched.RbInsert
import ShellCore.Sched.RbDelete
import ShellCore.Sched.RbUnlink
import ShellCore.Sched.RbMap
import ShellCore.Sched.Futex
import ShellCore.Sched.FutexInv
import ShellCore.Sched.Runqueue
import ShellCore.Sched.Moves
import ShellCore.Sched.Placement
import ShellCore.Sched.PlacementSteps
import ShellCore.Sched.Wakeup
import ShellCore.Sched.IdleGate
import ShellCore.Sched.Load
import ShellCore.Lib.Versions
import ShellCore.Block.CacheIdMap
import ShellCore.Block.PageCache
import ShellCore.Block.CacheMoves
import ShellCore.Block.CacheCounts
import ShellCore.Block.Coherence
import ShellCore.Block.Writeback
import ShellCore.Block.LostUpdate
import ShellCore.Block.SharedMapping
import ShellCore.Task.Cred
import ShellCore.Fs.Path
import ShellCore.Fs.Dentry
import ShellCore.Fs.Chroot
import ShellCore.Sched.Affinity
import ShellCore.Lib.Ring
import ShellCore.Lib.Waiting
import ShellCore.Sched.WaitQueue
import ShellCore.Fs.Pipe
import ShellCore.Fs.PipeWaiters
import ShellCore.Fs.PipeAtomic
import ShellCore.Task.Threads
import ShellCore.Task.ExitGroup
import ShellCore.Net.Socket
import ShellCore.Net.SocketWaiters
import ShellCore.Fs.Open
import ShellCore.Fs.Descriptor
import ShellCore.Fs.Access
import ShellCore.Fs.FileLock
import ShellCore.Fs.RecordLock
import ShellCore.Lib.Forest
import ShellCore.Fs.Rename
import ShellCore.Fs.RenameTree
import ShellCore.Fs.Epoll
import ShellCore.Fs.Append
import ShellCore.Ipc.Shm
import ShellCore.Ipc.ShmAccounts
import ShellCore.Task.PosixTimer
import ShellCore.Task.Signal
import ShellCore.Task.SignalMask
import ShellCore.Task.Kill
import ShellCore.Task.SignalShared
import ShellCore.Task.Processes
import ShellCore.Task.ProcessKin
import ShellCore.Task.Reaping
import ShellCore.Task.ProcessTree
import ShellCore.Task.ChildWait
import ShellCore.Mm.PageWalk
import ShellCore.Ext4.LazyBitmap
import ShellCore.Ext4.DropIndex
import ShellCore.Lib.Walk
import ShellCore.Ext4.Lookup
import ShellCore.Mm.Pin
import ShellCore.Mm.CString

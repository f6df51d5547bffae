import GoofyOs.ForMathlib.LinkedList
import GoofyOs.ForMathlib.LinkedListLoop
import GoofyOs.ForMathlib.DyadicBlock
import GoofyOs.ForMathlib.DyadicFamily
import GoofyOs.ForMathlib.Tiling
import GoofyOs.ForMathlib.Run
import GoofyOs.CInt
import GoofyOs.ListHead
import GoofyOs.ListHeadRun
import GoofyOs.Buddy
import GoofyOs.BuddyRun
import GoofyOs.BuddyFree
import GoofyOs.BuddyAlloc
import GoofyOs.BuddyInit
import GoofyOs.BuddyInitLoss
import GoofyOs.Mempool
import GoofyOs.Slab
import GoofyOs.SlabRun
import GoofyOs.SlabBlocks
import GoofyOs.PageUnion
import GoofyOs.SlabExhaustion
import GoofyOs.Sched
import GoofyOs.SchedPreempt
import GoofyOs.Spinlock
import GoofyOs.CpuIdentity
import GoofyOs.Fbconsole
import GoofyOs.Sparse
import GoofyOs.Exhaustion
import GoofyOs.Libk
import GoofyOs.Cmdline
import GoofyOs.Vmalloc
import GoofyOs.Mapper
import GoofyOs.PageTables
import GoofyOs.MapperRun
import GoofyOs.KernelHalf
import GoofyOs.VmallocPages
import GoofyOs.VmallocRun
import GoofyOs.MappedPages
import GoofyOs.MissingTables
import GoofyOs.VmapContiguous
import GoofyOs.VmallocFailure
import GoofyOs.MapperLock
import GoofyOs.ForMathlib.FourLevelPaging
import GoofyOs.PageWalk
import GoofyOs.ForMathlib.Proc
import GoofyOs.ForMathlib.ProcSim
import GoofyOs.Hashmap
import GoofyOs.Dlist
import GoofyOs.DlistRun
import GoofyOs.DlistFamily
import GoofyOs.HashmapHeap
import GoofyOs.ForMathlib.Buckets
import GoofyOs.HashmapResize
import GoofyOs.HashmapCount
import GoofyOs.Vfs
import GoofyOs.ForMathlib.PathWalk
import GoofyOs.VfsTree
import GoofyOs.VfsLookup
import GoofyOs.ForMathlib.Pieces
import GoofyOs.VfsParse
import GoofyOs.VfsAdd
import GoofyOs.VfsWrite
import GoofyOs.VfsRun
import GoofyOs.VfsLocks
import GoofyOs.VfsFailure
import GoofyOs.VfsCreation
import GoofyOs.VfsConcurrent
import GoofyOs.VfsTypes
import GoofyOs.VfsVnodes
import GoofyOs.VfsReadWrite
import GoofyOs.VfsFiles
import GoofyOs.VfsPread
import GoofyOs.VfsPaths
import GoofyOs.DentryResolve
import GoofyOs.Initrd
import GoofyOs.InitrdRun
import GoofyOs.InitrdSize
import GoofyOs.ForMathlib.Trail
import GoofyOs.InitrdWalk
import GoofyOs.InitrdBounds
import GoofyOs.InitrdLocal
import GoofyOs.ForMathlib.Records
import GoofyOs.Madt
import GoofyOs.BumpPages
import GoofyOs.MemmapIntake
import GoofyOs.CmdlineBoot
import GoofyOs.LibkMem
import GoofyOs.Numbers
import GoofyOs.Vsprintf
import GoofyOs.Printk
import GoofyOs.ForMathlib.Numeral
import GoofyOs.Numerals
import GoofyOs.FieldWidths
import GoofyOs.FormatReads
import GoofyOs.Memmove
import GoofyOs.FnvHash
import GoofyOs.BinfmtElf
import GoofyOs.Hpet
import GoofyOs.ForMathlib.Slots
import GoofyOs.SlabBytes
import GoofyOs.ConsoleBounds
import GoofyOs.ConsoleBatching
import GoofyOs.InterruptFrame
import GoofyOs.MemcpyOverlap
import GoofyOs.ContextSwitch
import GoofyOs.Descriptors
import GoofyOs.ForMathlib.LockedObject
import GoofyOs.RawAcquire
import GoofyOs.SmpObjects
import GoofyOs.ForMathlib.LockOrder
import GoofyOs.LockSmp
import GoofyOs.KernelLocks
import GoofyOs.BootMemory
import GoofyOs.HardwareWalk
import GoofyOs.ForMathlib.CachedMap
import GoofyOs.Tlb
import GoofyOs.InitrdExec

import SpringOs.Lib.Word
import SpringOs.Lib.Machine
import SpringOs.Lib.Numeral
import SpringOs.Lib.Ranges
import SpringOs.Lib.RefCount
import SpringOs.Lib.Radix
import SpringOs.Lib.Arm
import SpringOs.Lib.ArmMemory
import SpringOs.Lib.Bytes
import SpringOs.Lib.LinkedList
import SpringOs.Lib.Leonardo
import SpringOs.Lib.LeonardoForest
import SpringOs.Lib.RingBuffer
import SpringOs.Lib.Terminal
import SpringOs.Lib.Cells
import SpringOs.Lib.Exclusive
import SpringOs.Lib.ArmExclusive
import SpringOs.Kernel
import SpringOs.Bitmap
import SpringOs.BitmapSearch
import SpringOs.Asid
import SpringOs.Time
import SpringOs.PageAlloc
import SpringOs.BitmapScan
import SpringOs.PageRuns
import SpringOs.PageAccount
import SpringOs.PageBounds
import SpringOs.PageDescs
import SpringOs.SlabAlloc
import SpringOs.SlabFit
import SpringOs.Heap
import SpringOs.SlabRuns
import SpringOs.SlabLeak
import SpringOs.SlabPools
import SpringOs.SlabSizes
import SpringOs.SlabRegistry
import SpringOs.KmemRuns
import SpringOs.KallocSize
import SpringOs.Handle
import SpringOs.HandleMap
import SpringOs.Kobject
import SpringOs.PmaCreate
import SpringOs.KobjectRuns
import SpringOs.Syscall
import SpringOs.PageTable
import SpringOs.PageTree
import SpringOs.PageMap
import SpringOs.AddressSpace
import SpringOs.PmdRange
import SpringOs.PageWalk
import SpringOs.Descriptors
import SpringOs.UserSpace
import SpringOs.Ramdisk
import SpringOs.Mkrmd
import SpringOs.MkrmdModes
import SpringOs.RamdiskNames
import SpringOs.Exec
import SpringOs.ExecLoad
import SpringOs.ExecImage
import SpringOs.ExecStack
import SpringOs.ExecPages
import SpringOs.Spinlock
import SpringOs.Atomic
import SpringOs.SpinlockRuns
import SpringOs.KobjectRefs
import SpringOs.Sched
import SpringOs.ReadyList
import SpringOs.Vmm
import SpringOs.RootProc
import SpringOs.RootExec
import SpringOs.TraceBuffer
import SpringOs.Functrace
import SpringOs.FunctraceArgs
import SpringOs.Print
import SpringOs.PrintSafe
import SpringOs.PrintFormat
import SpringOs.PrintIso
import SpringOs.Strtol
import SpringOs.Qsort
import SpringOs.QsortSorts
import SpringOs.Memmove
import SpringOs.Memset
import SpringOs.Readline
import SpringOs.LineEditor
import SpringOs.HistoryWalk
import SpringOs.LineSessions
import SpringOs.Monitor
import SpringOs.Kmon
import SpringOs.Breakpoint
import SpringOs.Cfi
import SpringOs.Halloc
import SpringOs.HallocRuns
import SpringOs.HallocSize
import SpringOs.Uaccess

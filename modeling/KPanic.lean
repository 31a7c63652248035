import KPanic.Lib.Wp
import KPanic.Lib.Ensures
import KPanic.Lib.BitField
import KPanic.Lib.Bytes
import KPanic.Lib.MapList
import KPanic.Lib.PartialMap
import KPanic.Lib.SlotUpdate
import KPanic.Lib.PageTree
import KPanic.Lib.TreeSplit
import KPanic.Lib.CopyOnWrite
import KPanic.Lib.WaitGraph
import KPanic.Lib.Machine
import KPanic.Util.Bitmap
import KPanic.Util.RingBuffer
import KPanic.Mm.Kernel
import KPanic.Mm.PageManager
import KPanic.Mm.PageRuns
import KPanic.Mm.BootReservation
import KPanic.Mm.HeapDefects
import KPanic.Arch.FreeTables
import KPanic.Arch.ForEachPage
import KPanic.Mm.PageFaultHandler
import KPanic.Kernel.Threads
import KPanic.Kernel.ThreadEffects
import KPanic.Kernel.JoinInvariant
import KPanic.Kernel.JoinDelivery
import KPanic.Kernel.WaitPid
import KPanic.Kernel.WaitPidDeadlock
import KPanic.Kernel.WaitPidWake
import KPanic.Kernel.UserProcess
import KPanic.Kernel.PrivateMemory
import KPanic.Kernel.VmExecv
import KPanic.Kernel.UserStacks
import KPanic.Kernel.StackPages
import KPanic.Kernel.LocalFDs
import KPanic.Kernel.FdInvariant
import KPanic.Kernel.PipeInvariant
import KPanic.Kernel.PipeQueues
import KPanic.Kernel.Scheduler
import KPanic.Kernel.ThreadCleanup
import KPanic.Kernel.ProcessClock
import KPanic.Kernel.Sleep
import KPanic.Arch.IDEDriver
import KPanic.Arch.ATADriver
import KPanic.Kernel.ProgramHeaders
import KPanic.Kernel.Cancellation
import KPanic.Kernel.MutexWakeups
import KPanic.Kernel.ConditionSignals
import KPanic.Kernel.LockDeadlock
import KPanic.Util.FiFo
import KPanic.Util.DebugRoundTrip
import KPanic.Fs.SharedFiles
import KPanic.Kernel.ExecvFailure
import KPanic.Kernel.ExecvArgs
import KPanic.Fs.BitmapRemount
import KPanic.Fs.BitmapSearch
import KPanic.Fs.MinixFSInode
import KPanic.Fs.InodeRefusal
import KPanic.Fs.InodePersistence
import KPanic.Kernel.LoadPage
import KPanic.Kernel.SyscallPointers
import KPanic.Kernel.ForkFiles
import KPanic.Fs.PathGrammar
import KPanic.Arch.AddressSpace
import KPanic.Fs.ZoneRuns
import KPanic.Fs.ZonePersistence
import KPanic.Fs.FileRuns
import KPanic.Fs.FileZones
import KPanic.Util.Kstring
import KPanic.Util.Strtok
import KPanic.Util.MangledNames
import KPanic.Kernel.LockListRuns
import KPanic.Kernel.SpinLockTraces
import KPanic.Console.Screen
import KPanic.Console.BackspaceWait
import KPanic.Libc.Gets
import KPanic.Libc.NumberScan
import KPanic.Libc.IntegerRoundTrip
import KPanic.Libc.PrintfBounds

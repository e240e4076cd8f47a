import Xv6Threads.LogDisk
import Xv6Threads.LogAdmission
import Xv6Threads.ProcTable
import Xv6Threads.ProcTree
import Xv6Threads.PageDirs
import Xv6Threads.PageMap
import Xv6Threads.ThreadIds
import Xv6Threads.ThreadCount
import Xv6Threads.UserPointers
import Xv6Threads.Lineage
import Xv6Threads.GroupCommit
import Xv6Threads.OpenOps
import Xv6Threads.CacheCommit
import Xv6Threads.Pipes
import Xv6Threads.Sbrk
import Xv6Threads.JoinLock
import Xv6Threads.Kill
import Xv6Threads.MainThreads
import Xv6Threads.SleepWakeup
import Xv6Threads.Spinlock
import Xv6Threads.WaitProtocol
import Xv6Threads.SharedFiles
import Xv6Threads.ThreadCost
import Xv6Threads.JoinRounds
import Xv6Threads.UserStrings
import Xv6Threads.UserBuffers
import Xv6Threads.Ide
import Xv6Threads.Console
import Xv6Threads.ShellParser
import Xv6Threads.UmallocHeap
import Xv6Threads.Scheduler
import Xv6Threads.FileCalls
import Xv6Threads.IcacheRuns
import Xv6Threads.Growproc
import Xv6Threads.Grep
import Xv6Threads.Fs.DirMap
import Xv6Threads.Fs.SharedOffset
import Xv6Threads.Fs.MkfsMount
import Xv6Threads.Memmove
import Xv6Threads.Kalloc
import Xv6Threads.ReadErrors
import Xv6Threads.Mp
import Xv6Threads.ThreadStack
import Xv6Threads.PageTables

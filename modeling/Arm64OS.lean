import Arm64OS.Arch.SwitchRun
import Arm64OS.Arch.EntryNestRun
import Arm64OS.Arch.EntryRun
import Arm64OS.Printk.LogBuf
import Arm64OS.Printk.Decode
import Arm64OS.Printk.Interleave
import Arm64OS.Drivers.Gicv2Enable
import Arm64OS.Arch.PlUart
import Arm64OS.Kernel.SchedSwitches
import Arm64OS.Kernel.SchedTicks
import Arm64OS.Kernel.StartKernelRun
import Arm64OS.Kernel.MallocRun
import Arm64OS.Kernel.Preempt
import Arm64OS.Kernel.ForkRaceRun
import Arm64OS.Memset
import Arm64OS.Arch.DumpPgtable
import Arm64OS.Arch.RetFromFork
import Arm64OS.Arch.MmuFull
import Arm64OS.Drivers.Gicv2Table
import Arm64OS.Printk.Star
import Arm64OS.Printk.Cursor
import Arm64OS.Printk.Count
import Arm64OS.Printk.Padding
import Arm64OS.MemsetPairs
import Arm64OS.Drivers.Gicv2Dist
import Arm64OS.Arch.MmuTwice
import Arm64OS.Arch.Cacheinfo
import Arm64OS.Arch.AddrEnd
import Arm64OS.Kernel.ListRun
import Arm64OS.Arch.Memzero
import Arm64OS.Kernel.SchedFair
import Arm64OS.Kernel.TimerIrq
import Arm64OS.Arch.Head
import Arm64OS.Arch.PagingInit
import Arm64OS.Arch.DumpProt
import Arm64OS.Arch.TestWalk
import Arm64OS.Kernel.TaskPool
import Arm64OS.Kernel.PromptLoopRun
import Arm64OS.Arch.UserThread
import Arm64OS.Memcpy

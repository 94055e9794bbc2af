import SinsOs.Core.Dyadic
import SinsOs.Core.Lts
import SinsOs.Core.Guard
import SinsOs.Mm.BuddyRun
import SinsOs.Mm.BuddyHistory
import SinsOs.Mm.KmallocOrder
import SinsOs.Mm.Translate
import SinsOs.Mm.HighMem
import SinsOs.Mm.CutZone
import SinsOs.Mm.ZonesWrites
import SinsOs.Mm.PageDir
import SinsOs.Mm.Region
import SinsOs.Arch.Entry
import SinsOs.Arch.Switch
import SinsOs.Arch.Syscall
import SinsOs.Fs.Open
import SinsOs.Fs.BlockRace
import SinsOs.Fs.BlockTable
import SinsOs.Fs.InodeCache
import SinsOs.Fs.RoundTrip
import SinsOs.Fs.InodeCounts
import SinsOs.Kernel.Sched
import SinsOs.Kernel.SchedLinks
import SinsOs.Lib.Div64
import SinsOs.Lib.Vsscanf
import SinsOs.Kernel.Exit
import SinsOs.Kernel.Sigreturn
import SinsOs.Kernel.Pid
import SinsOs.Kernel.PidWalk
import SinsOs.Kernel.Irq
import SinsOs.Kernel.Time
import SinsOs.Kernel.BootParams
import SinsOs.Kernel.TimerTicks
import SinsOs.Kernel.Semaphore
import SinsOs.Kernel.Fair
import SinsOs.Fs.ExecArgv
import SinsOs.Fs.ExecWrapper
import SinsOs.Fs.ExecMemory
import SinsOs.Fs.ExecFailure
import SinsOs.Fs.ExecCmd
import SinsOs.Fs.LongNames
import SinsOs.Fs.Mount
import SinsOs.Fs.Minix.Readdir
import SinsOs.Fs.Minix.DirNames
import SinsOs.Fs.Minix.LoopFailures
import SinsOs.Fs.Minix.Slots
import SinsOs.Drivers.ConsoleBounds
import SinsOs.Drivers.HdSectors
import SinsOs.Drivers.Tty
import SinsOs.Drivers.KeyEvents
import SinsOs.Tools.Cat
import SinsOs.Tools.Fetch
import SinsOs.Tools.Execute

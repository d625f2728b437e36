import LuoOS.Alloc.Runs
import LuoOS.Alloc.Startup
import LuoOS.Lock.Spinlock
import LuoOS.Ipc.Wakeup
import LuoOS.Vm.Sv39
import LuoOS.Vm.Levels
import LuoOS.Bio.BCache
import LuoOS.Ipc.SigNest
import LuoOS.Ipc.Futex
import LuoOS.Fs.PathNames
import LuoOS.Fs.ProcFiles
import LuoOS.Fs.SendFile
import LuoOS.Sched.Parked
import LuoOS.Fs.NameCodec
import LuoOS.Fs.ScanEnds
import LuoOS.Fs.TimeSpec
import LuoOS.Vm.RemoveRange
import LuoOS.Proc.Fork
import LuoOS.Dev.Completion
import LuoOS.Sched.LifeCycle
import LuoOS.Proc.ElfImage
import LuoOS.Fs.Coherence
import LuoOS.Vm.ScatterIO
import LuoOS.Vm.DemandPaging
import LuoOS.Vm.Reset
import LuoOS.Vm.Protect
import LuoOS.Vm.UserCopy
import LuoOS.Vm.CloneVmo

import Ossim.Locking
import Ossim.Mem.Areas
import Ossim.Mem.Contiguous
import Ossim.Mem.PartialCopies
import Ossim.Mem.Coalescing
import Ossim.Mem.Coverage
import Ossim.Mem.Devices
import Ossim.Mem.DummyRange
import Ossim.Mem.Failures
import Ossim.Mem.Objects
import Ossim.Mem.Returns
import Ossim.Mem.RawCalls
import Ossim.Mem.Registers
import Ossim.Mem.Requests
import Ossim.Mem.Pressure
import Ossim.Mem.LostWrite
import Ossim.Mem.Recycling
import Ossim.Mem.SlabLists
import Ossim.Mem.SwapCall
import Ossim.Mem.Rollback
import Ossim.Mem.Sweep
import Ossim.Mem.Flat
import Ossim.Mem.FreeList
import Ossim.Mem.RegionNodes
import Ossim.Mem.Syscall
import Ossim.Mem.Values
import Ossim.Sched.Accounting
import Ossim.Sched.Bypass
import Ossim.Sched.Idle
import Ossim.Sched.Policy
import Ossim.Sched.Quanta
import Ossim.Sched.Shutdown
import Ossim.Sched.Timer
import Ossim.Progress
import Ossim.Files.Boot
import Ossim.Mem.TablePointers

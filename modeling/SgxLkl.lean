import SgxLkl.Mem.Bounds
import SgxLkl.Mem.Accounting
import SgxLkl.Mem.FileMap
import SgxLkl.Mem.Remap
import SgxLkl.Sched.Waiters
import SgxLkl.Sched.Callers
import SgxLkl.Sched.Timeout
import SgxLkl.Sched.Assertions
import SgxLkl.Sched.Free
import SgxLkl.Sched.Create
import SgxLkl.Sched.Tls
import SgxLkl.Sched.Wakeup
import SgxLkl.Host.Mutex
import SgxLkl.Host.Semaphore
import SgxLkl.Host.Timer
import SgxLkl.Host.Disks
import SgxLkl.Host.Backends
import SgxLkl.Host.Parity
import SgxLkl.Enclave.Nanos
import SgxLkl.Enclave.ElfStack
import SgxLkl.Enclave.Mounts
import SgxLkl.Config.Numerals
import SgxLkl.Config.Sorting
import SgxLkl.Config.Hex
import SgxLkl.Config.Safety
import SgxLkl.Config.Buffer
import SgxLkl.Enclave.Wireguard
import SgxLkl.Luks.Typed
import SgxLkl.Luks.Splitting
import SgxLkl.Luks.Uuid
import SgxLkl.Luks.Effects
import SgxLkl.Luks1.Stat
import SgxLkl.Verity.Tree
import SgxLkl.Lib.SeqRing
import SgxLkl.Luks.Accesses
import SgxLkl.Luks.Crash
import SgxLkl.Luks.Sizes
import SgxLkl.Sched.Mpmc

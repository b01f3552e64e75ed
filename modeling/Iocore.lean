import Iocore.Adler32
import Iocore.AutoPtr
import Iocore.BoundedQ
import Iocore.Cpuinfo
import Iocore.InList.Assertions
import Iocore.Lock.CriticalSection
import Iocore.Lock.Guards
import Iocore.Lock.IsOwner
import Iocore.Lock.RWLock
import Iocore.Lock.SpinMutex.SpinTime
import Iocore.Lock.Timeout
import Iocore.Logger.Records
import Iocore.Math
import Iocore.PerfCounter.Brackets
import Iocore.PerfCounter.Table
import Iocore.PerfCounter.Termination
import Iocore.Queue.Cancellation
import Iocore.Queue.Deadline
import Iocore.Queue.Network.Quiescence
import Iocore.Queue.Wakeup
import Iocore.RRCpuId
import Iocore.StateMachine
import Iocore.Thread.Affinity
import Iocore.Thread.Collection
import Iocore.Thread.Fleet
import Iocore.ThreadTest
import Iocore.Time.Exact
import Iocore.TimeCounter

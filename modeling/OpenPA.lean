import OpenPA.Machine.Run
import OpenPA.Machine.Slot
import OpenPA.Machine.Memory
import OpenPA.Machine.Path
import OpenPA.Machine.Order
import OpenPA.Queue.Code
import OpenPA.Queue.Rebase
import OpenPA.Queue.Protocol
import OpenPA.Queue.Change
import OpenPA.Queue.Control
import OpenPA.Queue.Writers
import OpenPA.Queue.Segment
import OpenPA.Queue.History
import OpenPA.Queue.Reachable
import OpenPA.Queue.Fifo
import OpenPA.Queue.Reclaim
import OpenPA.Queue.Layout
import OpenPA.Queue.Quiet
import OpenPA.Queue.Visible
import OpenPA.Queue.Reorder
import OpenPA.Queue.Publish
import OpenPA.Queue.Wait
import OpenPA.Queue.Exclusive
import OpenPA.Queue.Alone
import OpenPA.Queue.AsymmInit
import OpenPA.Machine.Linearize
import OpenPA.Machine.Retry
import OpenPA.Machine.Progress
import OpenPA.Machine.Bytes
import OpenPA.Atomic.ByLock
import OpenPA.Atomic.ByLlsc
import OpenPA.Atomic.ByCas
import OpenPA.Atomic.Progress
import OpenPA.Atomic.Ia64
import OpenPA.Atomic.Ia64Frame
import OpenPA.Atomic.Overflow
import OpenPA.Atomic.Counter
import OpenPA.Atomic.Ring
import OpenPA.Atomic.LockInit
import OpenPA.Stack.Code
import OpenPA.Stack.Aba
import OpenPA.Stack.Checks
import OpenPA.Machine.Effect
import OpenPA.Machine.Section
import OpenPA.Atomic.Locked
import OpenPA.Machine.Assembly
import OpenPA.Atomic.LlscPorts
import OpenPA.Atomic.SiCortex
import OpenPA.Atomic.Intel
import OpenPA.Atomic.Intrinsics
import OpenPA.Machine.Emulate
import OpenPA.Machine.Client
import OpenPA.Atomic.Primitives
import OpenPA.Atomic.Addends
import OpenPA.Queue.Emulated
import OpenPA.Machine.LockFree
import OpenPA.Atomic.LockFree
import OpenPA.Test.Counters
import OpenPA.Test.LoadStore
import OpenPA.Test.Cas
import OpenPA.Test.Swaps
import OpenPA.Test.Fairness
import OpenPA.Test.Barriers
import OpenPA.Queue.Returns
import OpenPA.Test.QueueThreaded
import OpenPA.Test.LlscAba

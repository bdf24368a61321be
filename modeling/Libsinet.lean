import Libsinet.Base.Machine
import Libsinet.Base.Linked
import Libsinet.Base.Tally
import Libsinet.Base.WaitQueue
import Libsinet.Base.Circular
import Libsinet.SinList
import Libsinet.WiQueue
import Libsinet.WiQueueThreads
import Libsinet.Netmap
import Libsinet.RxRing
import Libsinet.TxThread
import Libsinet.TxThreadStop
import Libsinet.WrkThreadStart
import Libsinet.Base.Jump
import Libsinet.Base.Ledger
import Libsinet.SinInit
import Libsinet.SinInitUndo
import Libsinet.PktSorter
import Libsinet.Base.XorSwap
import Libsinet.PktZone
import Libsinet.Base.Pipeline
import Libsinet.SinLists
import Libsinet.Stance
import Libsinet.StanceLists
import Libsinet.StanceThreads
import Libsinet.StanceOnePlace
import Libsinet.StanceOrder
import Libsinet.Base.Bytes
import Libsinet.Base.OnesComplement
import Libsinet.SinNref
import Libsinet.Ip4
import Libsinet.Ip4Icmp
import Libsinet.UdpMirror
import Libsinet.Rewriters
import Libsinet.Base.Copy
import Libsinet.PktZoneFast
import Libsinet.TxPass
import Libsinet.SinSorter
import Libsinet.WiQueueBulk
import Libsinet.SpinRing
import Libsinet.SinInitRings
import Libsinet.Cksum
import Libsinet.PktZoneCtor
import Libsinet.Base.Heap
import Libsinet.SinAddr
import Libsinet.SorterArgs
import Libsinet.Base.Execution
import Libsinet.Base.Delivery
import Libsinet.StanceCycle
import Libsinet.StanceLive
import Libsinet.UdpMirrorRun
import Libsinet.TxThreadLife
import Libsinet.Base.Undo
import Libsinet.WrkThreadCtor
import Libsinet.WiQueueConsumer
import Libsinet.StanceBound
import Libsinet.StanceWalk
import Libsinet.StanceReturn
import Libsinet.SinDestroy
import Libsinet.StanceBufs
import Libsinet.SinSockets

import Kinakaze.Bpf.Isolation
import Kinakaze.Terminal.Transport
import Kinakaze.Fifo.Stream
import Kinakaze.RecordLock.Deadlock
import Kinakaze.Fifo.Rendezvous
import Kinakaze.Manager.Kinship
import Kinakaze.Manager.Retry
import Kinakaze.Manager.PoolRuns
import Kinakaze.Manager.Cancellation
import Kinakaze.Futex.QueueLaw
import Kinakaze.Classic.Soundness
import Kinakaze.Mount.Snapshots
import Kinakaze.Mount.BindLaw
import Kinakaze.Mount.PropagationLaw
import Kinakaze.UserNamespace.Capable
import Kinakaze.Semaphore.Accounting
import Kinakaze.Mqueue.Law
import Kinakaze.Inotify.Law
import Kinakaze.Unix.StreamEnd
import Kinakaze.Tmpfs.Law
import Kinakaze.Keyring.Law
import Kinakaze.Netlink.Subscribers
import Kinakaze.IoRing.Once
import Kinakaze.Listener.Law
import Kinakaze.Overlay.Listing
import Kinakaze.Signal.Law
import Kinakaze.Verity.Enable
import Kinakaze.Epoll.Copies
import Kinakaze.Linker.ResolveLaw
import Kinakaze.PidNamespace.Law
import Kinakaze.Linker.OpenLaw
import Kinakaze.SharedMutex.Law
import Kinakaze.Parking.Law
import Kinakaze.FdSlots.Record
import Kinakaze.Fork.Cow
import Kinakaze.Futex.Donation
import Kinakaze.Mappings.Partition
import Kinakaze.Mount.Components
import Kinakaze.Path.Normalize
import Kinakaze.Regex.Exec
import Kinakaze.Terminal.Erasing
import Kinakaze.Timer.Law
import Kinakaze.Linker.Relr
import Kinakaze.Linker.Stack
import Kinakaze.Signal.Group
import Kinakaze.Epoll.Nesting
import Kinakaze.Linker.Initialization
import Kinakaze.Alloc.Classes
import Kinakaze.FdLinks.Table

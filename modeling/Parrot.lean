import Parrot.Acl
import Parrot.ActorPath
import Parrot.App.CrashSafe
import Parrot.App.Planner
import Parrot.App.Rounds
import Parrot.Children.Grants
import Parrot.DeathWatch.Deliveries
import Parrot.Dedup.History
import Parrot.Delivery
import Parrot.Directory.Network
import Parrot.Directory.Refinement
import Parrot.Directory.Requests
import Parrot.Discovery.Readers
import Parrot.Inbox.Transactions
import Parrot.Interop.Python
import Parrot.Link.Agreement
import Parrot.Link.Lanes
import Parrot.Link.Relayed
import Parrot.Mailbox.Agreement
import Parrot.Mailbox.Arrivals
import Parrot.Mirror.Accounting
import Parrot.Mirror.Generations
import Parrot.Mqtt.Bridge
import Parrot.Node.Reports
import Parrot.Outbox.Barrier
import Parrot.Outbox.Reservation
import Parrot.Outbox.Sendable
import Parrot.Processor.Serial
import Parrot.Raft.Admitted
import Parrot.ReceiveTimeout
import Parrot.Resolve.Codec
import Parrot.Resolve.Flight
import Parrot.Resolve.Recency
import Parrot.Robots
import Parrot.Scheduler.Awake
import Parrot.Scheduler.Wakeups
import Parrot.Sharding
import Parrot.Singleton
import Parrot.Swim.Digest
import Parrot.Swim.Owner
import Parrot.Swim.Retention
import Parrot.Tell.Restart
import Parrot.Topology.Compaction
import Parrot.Topology.Hub
import Parrot.Topology.Reflector
import Parrot.Wal.Accounts
import Parrot.Wal.Submissions
import Parrot.Wire.RemoteDecode

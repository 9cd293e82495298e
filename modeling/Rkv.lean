import Rkv.Foundation.Lines
import Rkv.Foundation.Bytes
import Rkv.Foundation.Decimal
import Rkv.Foundation.Counter
import Rkv.Foundation.Log
import Rkv.Foundation.Run
import Rkv.Foundation.Simulation
import Rkv.Foundation.Paging
import Rkv.Foundation.Quorums
import Rkv.Foundation.FirstOccurrence
import Rkv.Foundation.PrefixCode
import Rkv.Foundation.MapSum
import Rkv.Foundation.JsonText
import Rkv.Foundation.JsonNesting
import Rkv.Foundation.Contest
import Rkv.Foundation.BufferedWriter
import Rkv.Foundation.LineReader
import Rkv.Storage.MemTable
import Rkv.Storage.SizeAccounting
import Rkv.Storage.VectorClock
import Rkv.Storage.ClockOrder
import Rkv.Storage.Wal
import Rkv.Storage.Snapshot
import Rkv.Storage.SnapshotCleanup
import Rkv.Storage.Engine
import Rkv.Storage.ReferenceCodec
import Rkv.Storage.FailingReads
import Rkv.Storage.TornLog
import Rkv.Storage.LogHistory
import Rkv.Storage.Checksum
import Rkv.Storage.Recovery
import Rkv.Storage.TornSnapshot
import Rkv.Storage.FlushRecovery
import Rkv.Storage.FailedWrite
import Rkv.Storage.DroppedWriter
import Rkv.Storage.Scan
import Rkv.Storage.Expiry
import Rkv.Storage.Eviction
import Rkv.Storage.Store
import Rkv.Storage.Threads
import Rkv.Storage.ConcurrentFlush
import Rkv.Storage.ConcurrentWriters
import Rkv.Storage.DisjointWriters
import Rkv.Storage.FlushRequests
import Rkv.Ring.ConsistentHash
import Rkv.Ring.PreferenceList
import Rkv.Ring.Disruption
import Rkv.Ring.Membership
import Rkv.Grpc.Proto
import Rkv.Grpc.Internal
import Rkv.Grpc.Scan
import Rkv.Grpc.ReplicaOrder
import Rkv.Grpc.Tombstones
import Rkv.Replication.Quorum
import Rkv.Replication.Coordinator
import Rkv.Replication.Resolve
import Rkv.Replication.LocalPuts
import Rkv.Replication.Accounting
import Rkv.Replication.Cluster
import Rkv.Replication.WriteQuorum
import Rkv.Replication.SingleNode
import Rkv.Replication.DeleteVisibility
import Rkv.Replication.Provenance
import Rkv.Replication.DeleteCover
import Rkv.Replication.StrongRead
import Rkv.Replication.OwnReads
import Rkv.Replication.QuorumOverlap
import Rkv.Gossip.Detector
import Rkv.Gossip.Steps
import Rkv.Gossip.Addresses
import Rkv.Gossip.Knowledge
import Rkv.Gossip.Merging
import Rkv.Gossip.Freshness
import Rkv.Gossip.RingAgreement
import Rkv.Gossip.FailureDetection
import Rkv.Gossip.Failover
import Rkv.Gossip.Rounds
import Rkv.Gossip.Partition
import Rkv.Gossip.Suspicion
import Rkv.Gossip.Dissemination
import Rkv.Gossip.OwnEntry
import Rkv.Gossip.Seeds
import Rkv.Gossip.Restart
import Rkv.Replication.SplitBrain
import Rkv.Replication.CallReads
import Rkv.Replication.Linearization
import Rkv.Replication.RegularRead

import HazelcastClient.Cluster.Delivery
import HazelcastClient.Cluster.PartitionTable
import HazelcastClient.Config.PatternMatcher
import HazelcastClient.Cp.Heartbeat
import HazelcastClient.Cp.LockRetry
import HazelcastClient.Cp.LockSession
import HazelcastClient.Cp.Semaphore
import HazelcastClient.Crdt.PnCounter
import HazelcastClient.FlakeId.UniqueIds
import HazelcastClient.FlakeId.UserExecutor
import HazelcastClient.NearCache.Eviction
import HazelcastClient.NearCache.Fill
import HazelcastClient.NearCache.GetAllCoherence
import HazelcastClient.NearCache.OwnWrites
import HazelcastClient.NearCache.ReplicatedMap
import HazelcastClient.Network.Lifecycle
import HazelcastClient.Network.WriteQueue
import HazelcastClient.Protocol.Reassembly
import HazelcastClient.Serialization.Compact.Fingerprint
import HazelcastClient.Serialization.Compact.Interop
import HazelcastClient.Serialization.Compact.SchemaService
import HazelcastClient.Serialization.DataInput
import HazelcastClient.Serialization.GenericRecord.ArrayAccess
import HazelcastClient.Serialization.Portable.Evolution
import HazelcastClient.Serialization.Portable.FieldOrder
import HazelcastClient.Serialization.Portable.NestedSize
import HazelcastClient.Serialization.Portable.Registration
import HazelcastClient.Serialization.ToData
import HazelcastClient.Spi.AckCount
import HazelcastClient.Spi.BackupAcks
import HazelcastClient.Spi.BackupSweep
import HazelcastClient.Spi.CallIdSequence
import HazelcastClient.Spi.ClusterView
import HazelcastClient.Spi.Deregistration
import HazelcastClient.Spi.Outbound
import HazelcastClient.Spi.ProxyCreation
import HazelcastClient.Spi.RetryDelay
import HazelcastClient.Spi.Stranded
import HazelcastClient.Spi.Waiting
import HazelcastClient.Topic.Cancellation
import HazelcastClient.Txn.TransactionProxy
import HazelcastClient.Util.BackoffIdleStrategy
import HazelcastClient.Util.Sampling

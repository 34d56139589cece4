import SystemDesignLabs.Raft.Snapshots
import SystemDesignLabs.WriteAhead.FailedAppend
import SystemDesignLabs.Crdt.ORSet
import SystemDesignLabs.Crdt.LWWRegister
import SystemDesignLabs.Crdt.DeltaCounter
import SystemDesignLabs.LsmKv.Reopen
import SystemDesignLabs.BTreeKv.TornInsert
import SystemDesignLabs.Sql.Rollback
import SystemDesignLabs.Kafka.FailedWrites
import SystemDesignLabs.Kafka.TornTail
import SystemDesignLabs.Kafka.Groups
import SystemDesignLabs.Timeseries.Reopen
import SystemDesignLabs.Gossip.Refutation
import SystemDesignLabs.GarbageCollector.TriColor
import SystemDesignLabs.GarbageCollector.Promotion
import SystemDesignLabs.LogicalClocks.Clocks
import SystemDesignLabs.ConsistentHashing.Movement
import SystemDesignLabs.MessageQueue.Visibility
import SystemDesignLabs.MessageQueue.Groups
import SystemDesignLabs.MessageQueue.Dedup
import SystemDesignLabs.Sagas.Recovery
import SystemDesignLabs.Tokenizer.Saved
import SystemDesignLabs.KvCache.TornTail
import SystemDesignLabs.DistLock.Lease
import SystemDesignLabs.StreamProcessor.Transactions
import SystemDesignLabs.StreamProcessor.Aggregator
import SystemDesignLabs.DistributedCron.Scheduler
import SystemDesignLabs.WebsocketGateway.Membership
import SystemDesignLabs.TcpStack.Isolation
import SystemDesignLabs.TcpStack.ByteStream
import SystemDesignLabs.DnsResolver.Transparency
import SystemDesignLabs.DnsResolver.Termination
import SystemDesignLabs.ContainerOrchestrator.Convergence
import SystemDesignLabs.KvCache.RespChunking
import SystemDesignLabs.KvCache.RespFraming
import SystemDesignLabs.RegexEngine.Regex
import SystemDesignLabs.RpcFramework.Delivery
import SystemDesignLabs.OauthProvider.Grants
import SystemDesignLabs.DocumentDb.Indexes
import SystemDesignLabs.CdnEdge.Freshness
import SystemDesignLabs.CdnEdge.Purge
import SystemDesignLabs.Pubsub.Delivery
import SystemDesignLabs.BTreeKv.PageRoundTrip
import SystemDesignLabs.BTreeKv.LeafLinks
import SystemDesignLabs.ComfyuiExecutor.Transparency
import SystemDesignLabs.Timeseries.GorillaRoundTrip
import SystemDesignLabs.Sql.ParserRoundTrip
import SystemDesignLabs.Sql.JoinSemantics
import SystemDesignLabs.ColumnarStorage.Malformed
import SystemDesignLabs.ColumnarStorage.Encoding
import SystemDesignLabs.BytecodeVm.TailCalls
import SystemDesignLabs.LogicalClocks.Hybrid
import SystemDesignLabs.TcpStack.Acknowledgement
import SystemDesignLabs.WebsocketGateway.History
import SystemDesignLabs.WebsocketGateway.Frames
import SystemDesignLabs.DocumentDb.Codec
import SystemDesignLabs.DnsResolver.Names
import SystemDesignLabs.DnsResolver.Glueless
import SystemDesignLabs.Sagas.Drivers
import SystemDesignLabs.GarbageCollector.MarkSweep
import SystemDesignLabs.BytecodeVm.Panics
import SystemDesignLabs.Raft.BackOff
import SystemDesignLabs.TcpStack.Window
import SystemDesignLabs.HttpServer.Chunked

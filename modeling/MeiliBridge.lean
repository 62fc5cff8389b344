import MeiliBridge.Lib.Trans
import MeiliBridge.Lib.Prog
import MeiliBridge.Lib.KeyOrder
import MeiliBridge.Lib.KeyedLog
import MeiliBridge.Lib.RwLock
import MeiliBridge.Lib.Reader
import MeiliBridge.Base.Text
import MeiliBridge.Base.Bytes
import MeiliBridge.Base.Number
import MeiliBridge.Base.Value
import MeiliBridge.Config
import MeiliBridge.Models.Error
import MeiliBridge.Models.Event
import MeiliBridge.Pipeline.Filter
import MeiliBridge.Pipeline.Transformer
import MeiliBridge.Pipeline.Mapper
import MeiliBridge.Pipeline.SoftDelete
import MeiliBridge.Pipeline.SingleEvent
import MeiliBridge.Pipeline.Positions
import MeiliBridge.Destination.BatchProcessor
import MeiliBridge.Destination.Adapter
import MeiliBridge.Destination.Documents
import MeiliBridge.Destination.SoftDeleteDelivery
import MeiliBridge.Pipeline.Parallel
import MeiliBridge.Pipeline.ParallelMoves
import MeiliBridge.Pipeline.ParallelOrder
import MeiliBridge.Pipeline.CdcCoordinator
import MeiliBridge.Pipeline.PausedEvents
import MeiliBridge.Pipeline.Backpressure
import MeiliBridge.Pipeline.PauseLifted
import MeiliBridge.Pipeline.CoordinatorLock
import MeiliBridge.Delivery.Deduplication
import MeiliBridge.Delivery.TwoPhaseCommit
import MeiliBridge.Delivery.TwoPhaseSafety
import MeiliBridge.Delivery.World
import MeiliBridge.Delivery.TransactionalCheckpoint
import MeiliBridge.Delivery.Rollback
import MeiliBridge.Delivery.Manager
import MeiliBridge.Delivery.StoresAgree
import MeiliBridge.Delivery.Frames
import MeiliBridge.Checkpoint.Storage
import MeiliBridge.Checkpoint.Manager
import MeiliBridge.Checkpoint.PlainMap
import MeiliBridge.Checkpoint.Flow
import MeiliBridge.Checkpoint.Monotone
import MeiliBridge.Checkpoint.Shutdown
import MeiliBridge.Orchestrator.DeadLetter
import MeiliBridge.Orchestrator.ProcessBatch
import MeiliBridge.Orchestrator.BatchSpec
import MeiliBridge.Orchestrator.AtLeastOnce
import MeiliBridge.Orchestrator.EventStream
import MeiliBridge.Orchestrator.StoredCheckpoint
import MeiliBridge.Orchestrator.CommitPath
import MeiliBridge.Pipeline.ParallelResults
import MeiliBridge.Pipeline.StealingTables
import MeiliBridge.Pipeline.ParallelCheckpoint
import MeiliBridge.Source.Replication
import MeiliBridge.Source.Resume
import MeiliBridge.Source.PgOutput
import MeiliBridge.Source.PgOutputLayout
import MeiliBridge.Lib.Paging
import MeiliBridge.Source.FullSync
import MeiliBridge.Pipeline.FullSyncAgreement
import MeiliBridge.Destination.FilteredIndex
import MeiliBridge.Destination.IndexRouting
import MeiliBridge.Delivery.CommittedPosition
import MeiliBridge.Lib.SlidingWindow
import MeiliBridge.Orchestrator.SharedDeduplication
import MeiliBridge.Source.TestDecoder
import MeiliBridge.Source.TestDecoding
import MeiliBridge.Base.Chars
import MeiliBridge.Source.TestDecoderScan
import MeiliBridge.Source.TestDecoderTokens
import MeiliBridge.Source.TestDecoderLine
import MeiliBridge.Source.TestDecoderRoundTrip
import MeiliBridge.Source.WalConsumer
import MeiliBridge.Source.WalConsumerScan
import MeiliBridge.Source.DecoderAgreement
import MeiliBridge.Delivery.PreparedTask
import MeiliBridge.Delivery.Window
import MeiliBridge.Delivery.KeySoundness
import MeiliBridge.Config.Validation
import MeiliBridge.Lib.Redis
import MeiliBridge.Checkpoint.RedisStorage
import MeiliBridge.Dlq.Storage
import MeiliBridge.Lib.Ranking
import MeiliBridge.Dlq.RedisIndex
import MeiliBridge.Dlq.StoragesAgree
import MeiliBridge.Dlq.Reprocess
import MeiliBridge.Lib.Chunks
import MeiliBridge.Destination.ImportData
import MeiliBridge.Orchestrator.FullSyncImport
import MeiliBridge.Orchestrator.FullSyncComplete
import MeiliBridge.Pipeline.ChannelOrder
import MeiliBridge.Orchestrator.StreamBatches
import MeiliBridge.Orchestrator.SequentialDelivery
import MeiliBridge.Pipeline.CoordinatorDrain
import MeiliBridge.Source.ConsumerEnd
import MeiliBridge.Delivery.LsnOrder
import MeiliBridge.Source.StartPosition
import MeiliBridge.Orchestrator.TransactionBrackets
import MeiliBridge.Checkpoint.LastWrite
import MeiliBridge.Checkpoint.Stop
import MeiliBridge.Checkpoint.Cleanup
import MeiliBridge.Pipeline.EventRouting
import MeiliBridge.Pipeline.Hysteresis
import MeiliBridge.Pipeline.WorkBalance
import MeiliBridge.Pipeline.WorkerPermits
import MeiliBridge.Destination.EventGroups
import MeiliBridge.Destination.CallLog
import MeiliBridge.Destination.DeleteFate
import MeiliBridge.Destination.Accounting
import MeiliBridge.Destination.TaskKey
import MeiliBridge.Orchestrator.DeadLetterConversion
import MeiliBridge.Source.NewTuple
import MeiliBridge.Source.Types
import MeiliBridge.Source.ArrayText
import MeiliBridge.Source.ArrayRoundTrip
import MeiliBridge.Source.JsonbDecoding
import MeiliBridge.Source.TupleDecoding
import MeiliBridge.Source.UnchangedToast
import MeiliBridge.Base.FieldOrder
import MeiliBridge.Pipeline.MappingOrder
import MeiliBridge.Pipeline.TransformOrder
import MeiliBridge.Pipeline.HashOrder
import MeiliBridge.Config.ConditionFields
import MeiliBridge.Pipeline.NumericConditions
import MeiliBridge.Pipeline.MappedRow
import MeiliBridge.Pipeline.TransformPanic
import MeiliBridge.Recovery.CircuitBreaker
import MeiliBridge.Recovery.HalfOpenBound
import MeiliBridge.Recovery.FreshEvidence
import MeiliBridge.Recovery.FailureWindow
import MeiliBridge.Recovery.ProtectedCalls
import MeiliBridge.Pipeline.MemoryAccounting
import MeiliBridge.Source.StatementCache
import MeiliBridge.Source.CachedConnection
import MeiliBridge.Recovery.Backoff
import MeiliBridge.Recovery.Retry
import MeiliBridge.Recovery.DelayCap
import MeiliBridge.Sync.TaskManager
import MeiliBridge.Pipeline.ArrayStreaming
import MeiliBridge.Sync.TaskRegistry
import MeiliBridge.Pipeline.AdaptiveBatching
import MeiliBridge.Destination.BatchSize
import MeiliBridge.Pipeline.DocumentStream
import MeiliBridge.Lib.JsonText
import MeiliBridge.Pipeline.KeySearch
import MeiliBridge.Pipeline.EventRouter
import MeiliBridge.Delivery.Statistics
import MeiliBridge.Lib.Loop
import MeiliBridge.Pipeline.SearchBounds
import MeiliBridge.Source.Tokenizer
import MeiliBridge.Recovery.DeadLetter
import MeiliBridge.Recovery.DeadLetterStorage
import MeiliBridge.Recovery.DeadLetterReprocess
import MeiliBridge.Lib.Replay
import MeiliBridge.Destination.Reported
import MeiliBridge.Orchestrator.DestinationCommand
import MeiliBridge.Orchestrator.DestinationProcessor
import MeiliBridge.Orchestrator.IndexIsolation
import MeiliBridge.Orchestrator.Deployment
import MeiliBridge.Orchestrator.Mirror
import MeiliBridge.Lib.WorkerPool
import MeiliBridge.Pipeline.ParallelFeed
import MeiliBridge.Orchestrator.ParallelDeployment
import MeiliBridge.Lib.Rereading
import MeiliBridge.Orchestrator.ExactlyOnce
import MeiliBridge.Orchestrator.ReplayedDeployment
import MeiliBridge.Lib.Fairness
import MeiliBridge.Orchestrator.Progress
import MeiliBridge.Orchestrator.Convergence
import MeiliBridge.Pipeline.ChannelComplete
import MeiliBridge.Source.Arrivals
import MeiliBridge.Orchestrator.WholePipeline

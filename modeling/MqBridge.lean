import MqBridge.Support.UncoveredRuns
import MqBridge.Support.PackRoundTrip
import MqBridge.EventStore.Log
import MqBridge.EventStore.Redelivery
import MqBridge.Middleware.DeadLetter
import MqBridge.Middleware.Deduplication.NoLoss
import MqBridge.Middleware.Deduplication.Sled
import MqBridge.Middleware.DeferredOrder
import MqBridge.Middleware.RejectedBatch
import MqBridge.Middleware.Aggregate.Acknowledgement
import MqBridge.Middleware.Aggregate.Keys
import MqBridge.Middleware.Aggregate.EntryKeys
import MqBridge.Structural.Switch
import MqBridge.Route.Disposition
import MqBridge.Route.GatedCommit
import MqBridge.Support.NameOrder
import MqBridge.Structural.SequenceMarker
import MqBridge.Middleware.WeakJoin.Settle
import MqBridge.Middleware.BufferDelivery
import MqBridge.Endpoints.FileTail
import MqBridge.Support.PickPath
import MqBridge.Middleware.Filter.Spans
import MqBridge.Middleware.Transform.Mapping
import MqBridge.Route.Replay
import MqBridge.Endpoints.File.QueueAcknowledged
import MqBridge.Endpoints.File.Drain
import MqBridge.Endpoints.File.Subscribe
import MqBridge.Endpoints.File.CsvQuotes
import MqBridge.Endpoints.File.Resume
import MqBridge.Endpoints.Http.StreamBody
import MqBridge.Endpoints.Kafka
import MqBridge.Endpoints.CursorReader
import MqBridge.Endpoints.Http.BulkPages
import MqBridge.Endpoints.PostgresCdc
import MqBridge.Endpoints.DirSpool.Consumer
import MqBridge.Endpoints.DirSpool.Publisher
import MqBridge.Support.Checkpoint
import MqBridge.Middleware.RewrittenPayloads
import MqBridge.Endpoints.CopyText

import Adabt.Core.Alike
import Adabt.Core.Arith
import Adabt.Core.Error
import Adabt.Core.ExactArith
import Adabt.Core.Float64
import Adabt.Core.Hash
import Adabt.Core.IntegerSums
import Adabt.Core.Record
import Adabt.Core.Rounding
import Adabt.Core.Schema
import Adabt.Core.Value
import Adabt.Core.ValueOrder
import Adabt.Engine.Caches
import Adabt.Engine.Column
import Adabt.Engine.ColumnCells
import Adabt.Engine.ColumnCopy
import Adabt.Engine.ColumnTopK
import Adabt.Engine.Commits
import Adabt.Engine.Database
import Adabt.Engine.DirectArray
import Adabt.Engine.DirectLookup
import Adabt.Engine.Experiment
import Adabt.Engine.ExprCodec
import Adabt.Engine.IndexNames
import Adabt.Engine.IndexRuns
import Adabt.Engine.Indexes
import Adabt.Engine.IntegerColumn
import Adabt.Engine.Isolation
import Adabt.Engine.Journal
import Adabt.Engine.MatView
import Adabt.Engine.MatViewRuns
import Adabt.Engine.Matching
import Adabt.Engine.Optimizations
import Adabt.Engine.Proving
import Adabt.Engine.ProvingRuns
import Adabt.Engine.Pushdown
import Adabt.Engine.Ramp
import Adabt.Engine.Replays
import Adabt.Engine.Serial
import Adabt.Engine.Serializability
import Adabt.Engine.Session
import Adabt.Engine.Sharded
import Adabt.Engine.ShardedTables
import Adabt.Engine.Uniqueness
import Adabt.Engine.Verification
import Adabt.Engine.Withdrawal
import Adabt.Exec.AccessPaths
import Adabt.Exec.Answer
import Adabt.Exec.ColumnAggregates
import Adabt.Exec.ColumnAgreement
import Adabt.Exec.ColumnPaths
import Adabt.Exec.Groups
import Adabt.Exec.Implication
import Adabt.Exec.Join
import Adabt.Exec.JoinAgreement
import Adabt.Exec.Planner
import Adabt.Exec.Planning
import Adabt.Exec.Preserve
import Adabt.Exec.QuerySource
import Adabt.Exec.RangeBounds
import Adabt.Exec.Rows
import Adabt.Exec.Run
import Adabt.Exec.RunRows
import Adabt.Indexing.Bitset
import Adabt.Indexing.InStep
import Adabt.Indexing.Index
import Adabt.Indexing.Multimap
import Adabt.Indexing.Serving
import Adabt.Indexing.Upkeep
import Adabt.Ir.Expr
import Adabt.Ir.Patterns
import Adabt.Ir.Plan
import Adabt.Ir.QueryKey
import Adabt.Ir.Reads
import Adabt.Ir.Shape
import Adabt.Ir.Sql
import Adabt.Ir.SqlPrint
import Adabt.Ir.SqlRoundTrip
import Adabt.Ir.SqlText
import Adabt.Ir.Vm
import Adabt.Ir.VmCorrect
import Adabt.Library.Buckets
import Adabt.Library.Bytes
import Adabt.Library.Fading
import Adabt.Library.Fallible
import Adabt.Library.Feed
import Adabt.Library.Framing
import Adabt.Library.KeyTable
import Adabt.Library.Lockstep
import Adabt.Library.Merge
import Adabt.Library.OrdMap
import Adabt.Library.Orders
import Adabt.Library.Packed
import Adabt.Library.Program
import Adabt.Library.Reading
import Adabt.Library.Selection
import Adabt.Library.Sequences
import Adabt.Library.Table
import Adabt.Library.Undo
import Adabt.Library.VersionStore
import Adabt.Opt.Adaptive
import Adabt.Opt.Controller
import Adabt.Opt.CostModel
import Adabt.Opt.DependencyOrder
import Adabt.Opt.Driver
import Adabt.Opt.Experiment
import Adabt.Opt.JointSearch
import Adabt.Opt.Learning
import Adabt.Opt.Legality
import Adabt.Opt.Proposals
import Adabt.Opt.Ramp
import Adabt.Opt.Registry
import Adabt.Opt.Reversal
import Adabt.Opt.Settling
import Adabt.Opt.Sink
import Adabt.Opt.Stability
import Adabt.Server.Bodies
import Adabt.Server.Carriage
import Adabt.Server.Handle
import Adabt.Server.Malformed
import Adabt.Server.Respond
import Adabt.Server.Sessions
import Adabt.Server.Wire
import Adabt.Storage.Batches
import Adabt.Storage.BitmapBoundary
import Adabt.Storage.Buffer
import Adabt.Storage.Calls
import Adabt.Storage.Catalog
import Adabt.Storage.CatalogFile
import Adabt.Storage.Clustering
import Adabt.Storage.Codec
import Adabt.Storage.CodecRoundTrip
import Adabt.Storage.CodecRows
import Adabt.Storage.Contents
import Adabt.Storage.Cursor
import Adabt.Storage.Decode
import Adabt.Storage.Eviction
import Adabt.Storage.FixedSlot
import Adabt.Storage.Heap
import Adabt.Storage.HeapStore
import Adabt.Storage.HeapView
import Adabt.Storage.InPlaceEdit
import Adabt.Storage.Lockstep
import Adabt.Storage.Page
import Adabt.Storage.PageChecks
import Adabt.Storage.PageInvariant
import Adabt.Storage.PageRefinement
import Adabt.Storage.PageRuns
import Adabt.Storage.Pager
import Adabt.Storage.PagerCache
import Adabt.Storage.PagerCalls
import Adabt.Storage.PagerRuns
import Adabt.Storage.PagerVictims
import Adabt.Storage.Peek
import Adabt.Storage.Placement
import Adabt.Storage.Pool
import Adabt.Storage.Readback
import Adabt.Storage.Reads
import Adabt.Storage.Recompress
import Adabt.Storage.RecordBounds
import Adabt.Storage.RecordReader
import Adabt.Storage.Recovery
import Adabt.Storage.RowDepth
import Adabt.Storage.SchemaChange
import Adabt.Storage.SchemaCodec
import Adabt.Storage.Snapshots
import Adabt.Storage.Tlv
import Adabt.Storage.TlvRoundTrip
import Adabt.Storage.Vacuum
import Adabt.Storage.ValueCodec
import Adabt.Storage.ValueReader
import Adabt.Storage.ValueRef
import Adabt.Storage.Varint
import Adabt.Storage.Version
import Adabt.Storage.Versioning
import Adabt.Storage.Wal
import Adabt.Storage.WalChain
import Adabt.Storage.WalCodec
import Adabt.Storage.WalDamage
import Adabt.Storage.WalFrames
import Adabt.Storage.WalPayload
import Adabt.Storage.WalReading
import Adabt.Storage.WalReopen
import Adabt.Storage.WalRuns
import Adabt.Storage.WalTail
import Adabt.Storage.ZeroRecord
import Adabt.Telemetry.Collector
import Adabt.Telemetry.Forgetting
import Adabt.Telemetry.Percentiles
import Adabt.Telemetry.Sketch
import Adabt.Testkit.Agreement
import Adabt.Testkit.Coordinator
import Adabt.Testkit.Databases
import Adabt.Testkit.Differential
import Adabt.Testkit.Reference
import Adabt.Testkit.Shards

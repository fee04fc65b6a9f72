import AntaresBroker.SortedMap
import AntaresBroker.BTreeMap
import AntaresBroker.Binary64
import AntaresBroker.Number
import AntaresBroker.NumberText
import AntaresBroker.Json
import AntaresBroker.Clock
import AntaresBroker.Expiry
import AntaresBroker.Mem
import AntaresBroker.Shadow
import AntaresBroker.Restart
import AntaresBroker.FileMode
import AntaresBroker.ChangeOrder
import AntaresBroker.Text
import AntaresBroker.Context
import AntaresBroker.Compaction
import AntaresBroker.Jsonpath
import AntaresBroker.JsonString
import AntaresBroker.Ql
import AntaresBroker.Render
import AntaresBroker.Parsed
import AntaresBroker.Reread
import AntaresBroker.Flatten
import AntaresBroker.Trim
import AntaresBroker.RoundTrip
import AntaresBroker.Loops
import AntaresBroker.Lowering
import AntaresBroker.RegIndex
import AntaresBroker.Coverage
import AntaresBroker.Network
import AntaresBroker.Sweep
import AntaresBroker.Drain
import AntaresBroker.Merge
import AntaresBroker.Placement
import AntaresBroker.Composed
import AntaresBroker.ScopeQ
import AntaresBroker.Conjuncts
import AntaresBroker.EntityQuery
import AntaresBroker.Policy
import AntaresBroker.EntityMaps
import AntaresBroker.ReducedCopy
import AntaresBroker.Temporal
import AntaresBroker.Continuation
import AntaresBroker.KeyedLoop
import AntaresBroker.BatchStore
import AntaresBroker.BatchAgreement
import AntaresBroker.BatchParity
import AntaresBroker.Proxied
import AntaresBroker.Exclusive
import AntaresBroker.WriteLock
import AntaresBroker.DistSub
import AntaresBroker.Orphans
import AntaresBroker.Interleavings
import AntaresBroker.Evolution
import AntaresBroker.RowStore
import AntaresBroker.RowForm
import AntaresBroker.RowParity
import AntaresBroker.RowRuns
import AntaresBroker.Patch
import AntaresBroker.Batch
import AntaresBroker.BatchReport
import AntaresBroker.Runs
import AntaresBroker.Replica
import AntaresBroker.Bookkeeping
import AntaresBroker.Deliveries
import AntaresBroker.MirrorSync
import AntaresBroker.Interval
import AntaresBroker.Snapshots
import AntaresBroker.SnapshotMeta
import AntaresBroker.SnapshotCopies
import AntaresBroker.Paging
import AntaresBroker.Fill
import AntaresBroker.FillExact
import AntaresBroker.RegMirror
import AntaresBroker.Relay
import AntaresBroker.ChangeQueue
import AntaresBroker.SubIndex
import AntaresBroker.Regex
import AntaresBroker.Ere
import AntaresBroker.ScopePushdown
import AntaresBroker.RegexSyntax
import AntaresBroker.IdLiteral
import AntaresBroker.QueryText
import AntaresBroker.PageLinks
import AntaresBroker.ScopeWindow
import AntaresBroker.TemporalMerge
import AntaresBroker.Partition
import AntaresBroker.Attrs
import AntaresBroker.LinkedEval
import AntaresBroker.EntityOrder
import AntaresBroker.UnionSpec
import AntaresBroker.Egress
import AntaresBroker.LangSelect
import AntaresBroker.AttrRequests
import AntaresBroker.Purge
import AntaresBroker.FlatJoin
import AntaresBroker.RegexCache
import AntaresBroker.Scanner
import AntaresBroker.LinkHeader
import AntaresBroker.DateKey
import AntaresBroker.WindowSql
import AntaresBroker.MiniCache
import AntaresBroker.Loader
import AntaresBroker.EgressPolicy
import AntaresBroker.Nesting
import AntaresBroker.UpsertRace
import AntaresBroker.Outbox

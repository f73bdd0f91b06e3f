import Tack.Audit.Buffered
import Tack.Audit.BufferedNoLoss
import Tack.Audit.BufferedSafety
import Tack.Audit.CanonicalValue
import Tack.Audit.ChainAppend
import Tack.Audit.ChainLinks
import Tack.Audit.Event
import Tack.Audit.EventJson
import Tack.Audit.EventParts
import Tack.Audit.EventValidate
import Tack.Audit.Export
import Tack.Audit.ExportInv
import Tack.Audit.ExportWhole
import Tack.Audit.ManifestParts
import Tack.Audit.Notarizer
import Tack.Audit.ReadManifest
import Tack.Audit.ReaderPage
import Tack.Audit.RowHash
import Tack.Audit.RowHashTamper
import Tack.Fdb.AuditReadExecutor
import Tack.Fdb.AuditReadInv
import Tack.Fdb.AuditReadOnce
import Tack.Fdb.AuditReadStore
import Tack.Fdb.OpsOutbox
import Tack.Fdb.OpsOutboxRelay
import Tack.Lib.Base64
import Tack.Lib.ByteOrder
import Tack.Lib.CrashDir
import Tack.Lib.Decimal
import Tack.Lib.FirstSeen
import Tack.Lib.Float64
import Tack.Lib.Frames
import Tack.Lib.Grouped
import Tack.Lib.Hex
import Tack.Lib.History
import Tack.Lib.Json
import Tack.Lib.JsonBytes
import Tack.Lib.JsonCanonical
import Tack.Lib.JsonCompact
import Tack.Lib.JsonRead
import Tack.Lib.JsonValue
import Tack.Lib.Keyset
import Tack.Lib.LastIndex
import Tack.Lib.MerkleTree
import Tack.Lib.ParentForest
import Tack.Lib.ParseTime
import Tack.Lib.Rfc3339
import Tack.Lib.Run
import Tack.Lib.SeqStore
import Tack.Lib.SortedSlice
import Tack.Lib.Table
import Tack.Lib.Time
import Tack.Lib.Totals
import Tack.Lib.Trail
import Tack.Lib.Tx
import Tack.Lib.Utf8
import Tack.Lib.Utf8Boundary
import Tack.Lib.Uuid
import Tack.Lib.Versioned
import Tack.Nodes.Activation
import Tack.Nodes.ChangedOnce
import Tack.Nodes.Dangling
import Tack.Nodes.Db
import Tack.Nodes.EdgeSymmetry
import Tack.Nodes.EventIds
import Tack.Nodes.KeyedCreate
import Tack.Nodes.Mutation
import Tack.Nodes.ParentGraph
import Tack.Nodes.PropertyIndex
import Tack.Nodes.Records
import Tack.Nodes.ReferenceIndex
import Tack.Nodes.ReferenceParse
import Tack.Nodes.References
import Tack.Nodes.Relationships
import Tack.Nodes.Schema
import Tack.Nodes.Stored
import Tack.Nodes.Strict
import Tack.Nodes.SubtreeJob
import Tack.Nodes.System
import Tack.Nodes.Write
import Tack.Search.Checkpoints
import Tack.Search.Coherent
import Tack.Search.ContentPages
import Tack.Search.DigestInvariant
import Tack.Search.KeptWork
import Tack.Search.Lifetime
import Tack.Search.Metadata
import Tack.Search.NodeSystem
import Tack.Search.PagePartition
import Tack.Search.ProjectionDigest
import Tack.Search.QueryPage
import Tack.Search.QueryPaging
import Tack.Search.Records
import Tack.Search.Rescan
import Tack.Search.SessionRace
import Tack.Search.Work
import Tack.SearchAccess.Filter
import Tack.SearchAccess.Hierarchy
import Tack.SearchAccess.OrgScope
import Tack.SearchIndex.Bulk
import Tack.SearchIndex.Documents
import Tack.SearchIndex.GuardedWrite
import Tack.SearchIndex.PageCalls

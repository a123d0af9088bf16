import Dbvm.Lib.Prog
import Dbvm.Lib.Table
import Dbvm.Lib.RefCount
import Dbvm.Lib.Chunks
import Dbvm.Lib.Like
import Dbvm.Lib.Journal
import Dbvm.Lib.Posix
import Dbvm.Lib.Tx
import Dbvm.Path
import Dbvm.Policy
import Dbvm.Codec
import Dbvm.Db
import Dbvm.Triggers
import Dbvm.Read
import Dbvm.Store
import Dbvm.Refs
import Dbvm.Snapshot
import Dbvm.Maint
import Dbvm.Overlay.Basic
import Dbvm.Overlay.Refs
import Dbvm.Content
import Dbvm.RangeWrite
import Dbvm.Overlay.Total
import Dbvm.Overlay.Rows
import Dbvm.Overlay.Whiteouts
import Dbvm.Overlay.Lookups
import Dbvm.Overlay.Frame
import Dbvm.Overlay.Gone
import Dbvm.Refcount
import Dbvm.Host.Sync
import Dbvm.Host.Entry
import Dbvm.Host.Walk
import Dbvm.Host.Intact
import Dbvm.Host.Copy
import Dbvm.Undo.Capture
import Dbvm.Undo.Apply
import Dbvm.Undo.Sync
import Dbvm.Session
import Dbvm.Rewind
import Dbvm.Agent
import Dbvm.Lib.Script
import Dbvm.Import
import Dbvm.Faults
import Dbvm.Host.Mirror
import Dbvm.Effects
import Dbvm.Lib.Totals
import Dbvm.Counters
import Dbvm.Migrate
import Dbvm.Refusals
import Dbvm.RestorePoints
import Dbvm.Lib.Watch
import Dbvm.Overlay.Versions
import Dbvm.Permitted
import Dbvm.Lib.Isolation
import Dbvm.Connections
import Dbvm.Entries
import Dbvm.EntryInv
import Dbvm.EntryOps
import Dbvm.Proxy
import Dbvm.Disk
import Dbvm.DictCache
import Dbvm.Overlay.Absorb
import Dbvm.Lib.Shape
import Dbvm.Tree
import Dbvm.TreeOps
import Dbvm.Host.Tree
import Dbvm.Overlay.Tree
import Dbvm.TreeRuns
import Dbvm.Inject
import Dbvm.Lib.Bpf
import Dbvm.Seccomp
import Dbvm.Lib.Flock
import Dbvm.WorkDir
import Dbvm.Reclaim
import Dbvm.BundleCache
import Dbvm.BundleLimit
import Dbvm.Lib.Namei
import Dbvm.LinkParents
import Dbvm.Lib.Wal
import Dbvm.FileRestore
import Dbvm.Rechunk
import Dbvm.Recompress
import Dbvm.MountLinks
import Dbvm.Lib.Region
import Dbvm.Supervisor
import Dbvm.Lossy
import Dbvm.Elf
import Dbvm.Lib.SqlText
import Dbvm.PolicyText
import Dbvm.BulkIndexes
import Dbvm.Modes
import Dbvm.Lib.Replay
import Dbvm.TarImport
import Dbvm.Stream
import Dbvm.RequestHead
import Dbvm.Framing
import Dbvm.StepLog
import Dbvm.Canonical
import Dbvm.VmFuse
import Dbvm.Lib.Forest
import Dbvm.Lib.Wp
import Dbvm.Lib.Moves
import Dbvm.FuseRequests
import Dbvm.FuseTree
import Dbvm.FuseRuns
import Dbvm.FuseMount
import Dbvm.FuseMirror
import Dbvm.FuseRows
import Dbvm.FuseShows
import Dbvm.FuseRename
import Dbvm.FuseListing
import Dbvm.Lib.NameTree
import Dbvm.TreeWatch.Basic
import Dbvm.TreeWatch.Names
import Dbvm.TreeWatch.Cover
import Dbvm.TreeWatch.Changes
import Dbvm.TreeWatch.Sight
import Dbvm.TreeWatch.Progress
import Dbvm.TreeWatch.Complete
import Dbvm.EntryRuns
import Dbvm.FileHashes

import Keystone.Coding
import Keystone.Lib.Frame
import Keystone.Wal
import Keystone.Manifest
import Keystone.TornManifest
import Keystone.Bloom
import Keystone.Entry
import Keystone.Lib.Bisect
import Keystone.SSTable
import Keystone.SSTableLayout
import Keystone.SSTableGet
import Keystone.MergeLoop
import Keystone.Lib.SkipList
import Keystone.Memtable
import Keystone.Lib.KWayMerge
import Keystone.MergeIterator
import Keystone.Retention
import Keystone.Version
import Keystone.Engine
import Keystone.LiveFile
import Keystone.WellFormed
import Keystone.Recovery
import Keystone.Layering
import Keystone.Sequence
import Keystone.Round
import Keystone.Recency
import Keystone.Read
import Keystone.Visible
import Keystone.Client
import Keystone.GroupCommit
import Keystone.FailingLeader
import Keystone.ForcedMode
import Keystone.AnyLength
import Keystone.TableMeta
import Keystone.Crash
import Keystone.Freshness
import Keystone.ForgedRecord
import Keystone.CrashAtomic
import Keystone.Lib.LruCache
import Keystone.Replacement
import Keystone.Progress
import Keystone.CompactCall
import Keystone.Snapshots
import Keystone.BlockCache
import Keystone.Corruption
import Keystone.StoredBloom
import Keystone.CacheCalls
import Keystone.BlockReader
import Keystone.Lib.Simulation
import Keystone.FailedRead
import Keystone.Reclaim
import Keystone.FailedFlush
import Keystone.Renumber
import Keystone.Lib.Linearizable
import Keystone.Cover
import Keystone.Tidy
import Keystone.Readers
import Keystone.Lib.RefCount
import Keystone.References
import Keystone.History
import Keystone.CrashReads
import Keystone.Torture
import Keystone.Lib.Monitor
import Keystone.Wakeups
import Keystone.WriterWakeups
import Keystone.PowerLoss

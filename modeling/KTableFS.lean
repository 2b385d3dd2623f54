import KTableFS.Theory.Bytes
import KTableFS.Theory.ByteFile
import KTableFS.Theory.Run
import KTableFS.Theory.Lists
import KTableFS.Theory.Links
import KTableFS.Kvengine.Worker
import KTableFS.Kvengine.PageCacheMap
import KTableFS.Kvengine.PageCacheLive
import KTableFS.Kvengine.Pending
import KTableFS.Kvengine.Item
import KTableFS.Kvengine.SlabAlloc
import KTableFS.Kvengine.Process
import KTableFS.Kvengine.Rounds
import KTableFS.Kvengine.Ownership
import KTableFS.Kvengine.Alternation
import KTableFS.Kvengine.Frames
import KTableFS.Kvengine.Coherence
import KTableFS.Kvengine.Items
import KTableFS.Kvengine.Provenance
import KTableFS.Kvengine.MapRefinement
import KTableFS.Kvengine.Outgrown
import KTableFS.Kvengine.Db
import KTableFS.Kvengine.Completion
import KTableFS.Kvengine.Custody
import KTableFS.Kvengine.FailedWrite
import KTableFS.Kvengine.FailedRead
import KTableFS.Kvengine.Recency
import KTableFS.Kvengine.Lru
import KTableFS.Kvengine.SlabRuns
import KTableFS.Kvengine.Roundtrip
import KTableFS.Kvengine.Outcomes
import KTableFS.Kvengine.EarlyStop
import KTableFS.Kvengine.Arrival
import KTableFS.Kvengine.Shares
import KTableFS.Kvengine.Threads
import KTableFS.Kvengine.Survival
import KTableFS.Kvengine.Solo
import KTableFS.Kvengine.BatchOrder
import KTableFS.Kvengine.Finishing
import KTableFS.Kvengine.IoOrder
import KTableFS.Kvengine.Scan
import KTableFS.Fs.Blocks
import KTableFS.Fs.FileContents
import KTableFS.Fs.Requests
import KTableFS.Fs.Sizes
import KTableFS.Fs.Namespace
import KTableFS.Fs.Accounting
import KTableFS.Fs.LongNames
import KTableFS.Fs.ZeroCopy
import KTableFS.Fs.CopyRange
import KTableFS.Fs.Tenants
import KTableFS.Fs.ReadDir
import KTableFS.Kvengine.Partition
import KTableFS.Theory.Regions
import KTableFS.Util.Arena
import KTableFS.Index.KeyCmp
import KTableFS.Index.Memory
import KTableFS.Index.Rbtree
import KTableFS.Index.RbtreeShape
import KTableFS.Index.RbtreeBalance
import KTableFS.Index.RbtreeSearch
import KTableFS.Index.RbtreeInsert
import KTableFS.Index.RbtreeRemove
import KTableFS.Index.RbtreeUnlink
import KTableFS.Index.RbtreeMap
import KTableFS.Index.Btree
import KTableFS.Index.BtreeShape
import KTableFS.Index.BtreeLoops
import KTableFS.Index.BtreeSearch
import KTableFS.Index.BtreeInsert
import KTableFS.Index.BtreeSplit
import KTableFS.Index.BtreeShare
import KTableFS.Index.BtreeMerge
import KTableFS.Index.BtreeRemove
import KTableFS.Index.BtreeMap
import KTableFS.Index.Interchange
import KTableFS.Util.Memslab
import KTableFS.Theory.Mixing
import KTableFS.Kvengine.Hash
import KTableFS.Index.Depth
import KTableFS.Theory.Atomic
import KTableFS.Theory.Potential
import KTableFS.Kvengine.ThreadsafeQueue
import KTableFS.Kvengine.Progress
import KTableFS.Fs.Mount

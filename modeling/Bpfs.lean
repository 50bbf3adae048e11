import Bpfs.Lib.Wp
import Bpfs.Lib.LittleEndian
import Bpfs.Lib.Store
import Bpfs.Lib.LinkedList
import Bpfs.Bitmap
import Bpfs.Disk
import Bpfs.State
import Bpfs.Allocation
import Bpfs.BlockTree
import Bpfs.Tree
import Bpfs.Crawler
import Bpfs.CrawlRange
import Bpfs.Capacity
import Bpfs.TreeRoot
import Bpfs.TreeGrowth
import Bpfs.Steady
import Bpfs.Sweep
import Bpfs.SweepNode
import Bpfs.SweepLinks
import Bpfs.SweepCrawl
import Bpfs.LeafCrawl
import Bpfs.FileLeaves
import Bpfs.InodeCrawl
import Bpfs.FileOps
import Bpfs.WriteLeaf
import Bpfs.AntiCache
import Bpfs.Lru
import Bpfs.LruInvariant
import Bpfs.DiskReads
import Bpfs.Eviction
import Bpfs.AtomicCopy
import Bpfs.Superblock
import Bpfs.BlocknoCrawl
import Bpfs.Discovery
import Bpfs.Lib.Traversal
import Bpfs.Lib.Links
import Bpfs.Dirent
import Bpfs.InodeDiscovery
import Bpfs.DirBlock
import Bpfs.Directory
import Bpfs.DirLayout
import Bpfs.DirInvariant
import Bpfs.DirCache
import Bpfs.DirLoad
import Bpfs.DirAlloc
import Bpfs.DirOps
import Bpfs.DirCreate
import Bpfs.DirRemove
import Bpfs.DirRuns
import Bpfs.DirTypes
import Bpfs.DirRead
import Bpfs.DirStores
import Bpfs.DirCrash
import Bpfs.DiskAlloc
import Bpfs.Mount
import Bpfs.DirNames
import Bpfs.LruEvict
import Bpfs.Staging
import Bpfs.BitmapRuns
import Bpfs.BitmapTransaction
import Bpfs.Mapping
import Bpfs.BitmapShrink
import Bpfs.HashMapRuns
import Bpfs.HashMapIter
import Bpfs.DirLruRuns
import Bpfs.CowFailure
import Bpfs.CrawlStackBound
import Bpfs.CrawlAppend
import Bpfs.DiskFull
import Bpfs.TreeHeights
import Bpfs.TreeTail
import Bpfs.StillCrawl
import Bpfs.ReadTree
import Bpfs.InodeTouch
import Bpfs.Readdir
import Bpfs.ReaddirPages

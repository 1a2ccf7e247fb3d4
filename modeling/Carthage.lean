import Carthage.HashtableCalls
import Carthage.HashtableLoad
import Carthage.Bag
import Carthage.SetTable
import Carthage.BtreeLookup
import Carthage.StrbufRoom
import Carthage.StrbufOrder
import Carthage.StrbufFailure
import Carthage.QueueFifo
import Carthage.QueueRelease
import Carthage.MmblockCounts
import Carthage.ChunkqSearch
import Carthage.MpoolBalance
import Carthage.WorkqueueRuns
import Carthage.MmstreamTruncate
import Carthage.StreamRoundTrip
import Carthage.CacheRefusal
import Carthage.TwigRemoval
import Carthage.BtcacheReach
import Carthage.BtreeInsertFrame
import Carthage.BtreeReplace
import Carthage.BtreeFailure
import Carthage.BtreeRemoveKey
import Carthage.BtreeSession
import Carthage.FileStream
import Carthage.Mmsort
import Carthage.Merge
import Carthage.UintxAdd
import Carthage.UintxCount
import Carthage.UintxLogic
import Carthage.UintxZero
import Carthage.BitarrayRanges
import Carthage.BitarrayFind
import Carthage.BloomBounds
import Carthage.Memmove
import Carthage.Memset
import Carthage.Memcmp
import Carthage.Memchr
import Carthage.Strlen
import Carthage.Memrchr
import Carthage.Memmem
import Carthage.Strstr
import Carthage.Strcmp
import Carthage.Strtrim
import Carthage.ChunkqPool
import Carthage.WorkqueuePool
import Carthage.Sockpoll
import Carthage.BtreeSpace
import Carthage.Strcase
import Carthage.Memcpy

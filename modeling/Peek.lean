import Peek.Pending.MainHits
import Peek.Online.LpmParity
import Peek.Online.InternerPrune
import Peek.Online.VllmSync
import Peek.Offline.GroupMatch
import Peek.Offline.QueueKept
import Peek.Sglang.QueueAware
import Peek.Offline.Protection
import Peek.Pending.Demand
import Peek.Online.EvictionSafe
import Peek.Offline.ClientPending
import Peek.Online.LaneOrder
import Peek.Online.LaneFairness
import Peek.Online.ClusterArrival
import Peek.Online.ChainKept
import Peek.Offline.StaleRefs
import Peek.Offline.GroupTags
import Peek.Online.NoSharing
import Peek.Offline.Undoable
import Peek.Pending.ClusterInfo
import Peek.Pending.LongestMatch
import Peek.Pending.Sharing
import Peek.Online.LpmOrder
import Peek.Pending.Batches
import Peek.Pending.Snapshot
import Peek.Online.GroupMajor
import Peek.Offline.TrieHistory
import Peek.Offline.TrieOrder
import Peek.Offline.TrieGroups
import Peek.Offline.Reorder
import Peek.Offline.RankLocality
import Peek.Offline.VllmProtection
import Peek.Offline.EvictionRisk
import Peek.Online.AncestorDemand
import Peek.Online.BlockAlloc
import Peek.Offline.RequestsKept
import Peek.Offline.GroupRanking
import Peek.Offline.QueueCounts
import Peek.Offline.FreeQueue
import Peek.Sglang.Depths
import Peek.Sglang.SlotsConserved
import Peek.Sglang.PrefillFits
import Peek.Sglang.PrefillChunks
import Peek.Sglang.Preempt
import Peek.Sglang.InBatch
import Peek.Offline.StockPriority
import Peek.Sglang.Priorities
import Peek.Sglang.KvMirror
import Peek.Online.TickParity
import Peek.Online.VllmReorder

/-
The events a cache sends about its blocks (`_record_store_event`, `_record_remove_event` and
`take_events` of `patched_files/radix_cache.py`).

Every page of a node is a block.  Its hash is made from its tokens and from the hash of the page
before it; the namespace does not go into it.  A node keeps the hashes of its pages, and a split
parts them.  A new leaf is announced block by block, and so is a node that is evicted.

The cache itself is the one of `RadixCache`; what is added here is what the calls do to the
hashes and to the queue of events.  Two fields that are the same in every event are left out
(`lora_id` and `medium`), and `block_size`, which is the number of tokens.
-/
import Peek.Base.HashChain
import Peek.Sglang.QueueRefs

namespace Peek

open RadixCache

/-- How the server hashes a page (`get_hash_str`), and shortens a hash (`hash_str_to_int64`). -/
structure PageHash where
  Hash : Type
  getHashStr : List Token → Option Hash → Hash
  hashStrToInt64 : Hash → Int

inductive KvEvent
  | blockStored (blockHash : Int) (parentBlockHash : Option Int) (tokenIds : List Token)
  | blockRemoved (blockHash : Int)
  | allBlocksCleared
  deriving DecidableEq

/-- A cache, the hashes its nodes keep, and the events that have not been taken. -/
structure EventCache (H : PageHash) where
  cache : RadixCache
  hashValue : NodeId → Option (List H.Hash)
  kvEventQueue : List KvEvent
  enableKvCacheEvents : Bool

/-- `token_ids[start : start + page_size]` for `start` in `range(0, len(key), page_size)` -/
def RadixKey.chunks (ps : Nat) (key : RadixKey) : List (List Token) :=
  (List.range ((key.length + (ps - 1)) / ps)).map fun i => (key.tokenIds.drop (ps * i)).take ps

namespace EventCache

variable {H : PageHash}

/-- Change the cache alone. -/
def onCache (s : EventCache H) (f : RadixCache → RadixCache) : EventCache H :=
  { s with cache := f s.cache }

/-! ### Hashes -/

/-- `compute_node_hash_values` -/
def computeNodeHashValues (s : EventCache H) (n : NodeId) : List H.Hash :=
  let parent := (s.cache.node n).parent
  let parentHash := match s.hashValue parent with
    | some hashes => if 0 < (s.cache.node parent).key.length then hashes.getLast? else none
    | none => none
  HashChain.chain H.getHashStr parentHash ((s.cache.node n).key.chunks s.cache.pageSize)

/-- `split_node_hash_value` -/
def splitNodeHashValue (childHashValue : Option (List H.Hash)) (splitLen pageSize : Nat) :
    Option (List H.Hash) × Option (List H.Hash) :=
  match childHashValue with
  | none => (none, none)
  | some hashes =>
      let splitPages := if pageSize = 1 then splitLen else splitLen / pageSize
      (some (hashes.take splitPages), some (hashes.drop splitPages))

/-- `_split_node` -/
def splitNode (s : EventCache H) (child : NodeId) (splitLen : Nat) : EventCache H × NodeId :=
  let (c, newNode) := s.cache.splitNode child splitLen
  let (upper, lower) := splitNodeHashValue (s.hashValue child) splitLen s.cache.pageSize
  ({ s with
    cache := c
    hashValue := Function.update (Function.update s.hashValue newNode upper) child lower }, newNode)

/-! ### Events -/

/-- One event for each page, each with the hash of the page before it. -/
def storedEvents : Option Int → List (List Token × H.Hash) → List KvEvent
  | _, [] => []
  | parentBlockHash, (pageTokens, hash) :: rest =>
      let blockHash := H.hashStrToInt64 hash
      .blockStored blockHash parentBlockHash pageTokens :: storedEvents (some blockHash) rest

/-- The hashes a node has, or is given now. -/
def hashesOf (s : EventCache H) (n : NodeId) : List H.Hash :=
  (s.hashValue n).getD (s.computeNodeHashValues n)

/-- `_record_store_event` -/
def recordStoreEvent (s : EventCache H) (n : NodeId) : EventCache H :=
  if s.enableKvCacheEvents then
    let hashes := s.hashesOf n
    let parent := (s.cache.node n).parent
    let parentBlockHash := if parent ≠ rootNode then
        ((s.hashValue parent).bind List.getLast?).map H.hashStrToInt64
      else none
    { s with
      hashValue := Function.update s.hashValue n (some hashes)
      kvEventQueue := s.kvEventQueue ++ storedEvents parentBlockHash
        (((s.cache.node n).key.chunks s.cache.pageSize).zip hashes) }
  else s

/-- `_record_remove_event` -/
def recordRemoveEvent (s : EventCache H) (n : NodeId) : EventCache H :=
  if s.enableKvCacheEvents then
    let hashes := s.hashesOf n
    { s with
      hashValue := Function.update s.hashValue n (some hashes)
      kvEventQueue := s.kvEventQueue ++
        (((s.cache.node n).key.chunks s.cache.pageSize).zip hashes).map fun p =>
          .blockRemoved (H.hashStrToInt64 p.2) }
  else s

/-- `_record_all_cleared_event` -/
def recordAllClearedEvent (s : EventCache H) : EventCache H :=
  if s.enableKvCacheEvents then { s with kvEventQueue := s.kvEventQueue ++ [.allBlocksCleared] }
  else s

/-- `take_events`; returns the events and what is left. -/
def takeEvents (s : EventCache H) : List KvEvent × EventCache H :=
  if s.enableKvCacheEvents then (s.kvEventQueue, { s with kvEventQueue := [] }) else ([], s)

/-- `reset` -/
def reset (s : EventCache H) : EventCache H :=
  recordAllClearedEvent { s with
    cache := RadixCache.new s.cache.pageSize s.cache.disable
    hashValue := fun n => if n = rootNode then some [] else none }

/-- `__init__` -/
def new (H : PageHash) (pageSize : Nat) (disable enableKvCacheEvents : Bool) : EventCache H :=
  reset ⟨RadixCache.new pageSize disable, fun _ => none, [], enableKvCacheEvents⟩

/-! ### Matching -/

/-- The walk of `matchLoop`, for what it leaves behind. -/
def matchLoop (updateLru : Bool) (accessTime : Nat) :
    Nat → EventCache H → NodeId → RadixKey → EventCache H
  | 0, s, _, _ => s
  | fuel + 1, s, node, key =>
      if key.length > 0 then
        match (s.cache.node node).children.lookup (getChildKey key s.cache.pageSize) with
        | none => s
        | some child =>
            let s := s.onCache fun c => if updateLru then
                c.nodeMut child fun n => { n with lastAccessTime := accessTime }
              else c
            let prefixLen := keyMatch s.cache.pageSize (s.cache.node child).key key
            if prefixLen < (s.cache.node child).key.length then
              let (s, newNode) := s.splitNode child prefixLen
              s.onCache fun c => if updateLru then
                  c.nodeMut newNode fun n => { n with hitCount := n.hitCount + 1 }
                else c
            else
              let s := s.onCache fun c => if updateLru then
                  c.nodeMut child fun n => { n with hitCount := n.hitCount + 1 }
                else c
              matchLoop updateLru accessTime fuel s child (key.drop prefixLen)
      else s

/-- `match_prefix` and `match_prefix_readonly` -/
def matchPrefixWith (updateLru : Bool) (s : EventCache H) (key : RadixKey) : EventCache H :=
  if s.cache.disable ∨ key.length = 0 then s
  else
    let key := s.cache.pageAlign key
    if key.length = 0 then s
    else
      let accessTime := s.cache.clock
      let s := s.onCache fun c => if updateLru then
          (c.tick 1).nodeMut rootNode fun n => { n with lastAccessTime := accessTime }
        else c
      matchLoop updateLru accessTime key.length s rootNode key

/-! ### Inserting -/

/-- The walk of an insertion. -/
def insertLoop (priority : Int) (accessTime : Nat) :
    Nat → EventCache H → InsertWalk → EventCache H × InsertWalk
  | 0, s, w => (s, w)
  | fuel + 1, s, w =>
      if w.key.length > 0 then
        match (s.cache.node w.node).children.lookup (getChildKey w.key s.cache.pageSize) with
        | none => (s, w)
        | some child =>
            let s := s.onCache fun c =>
              c.nodeMut child fun n => { n with lastAccessTime := accessTime }
            let prefixLen := keyMatch s.cache.pageSize (s.cache.node child).key w.key
            let w :=
              { w with
                key := w.key.drop prefixLen, value := w.value.drop prefixLen
                totalPrefixLength := w.totalPrefixLength + prefixLen }
            if prefixLen < (s.cache.node child).key.length then
              let (s, newNode) := s.splitNode child prefixLen
              let s := s.onCache fun c =>
                c.nodeMut newNode fun n => { n with priority := max n.priority priority }
              insertLoop priority accessTime fuel s { w with node := newNode }
            else
              let s := s.onCache fun c =>
                c.nodeMut child fun n => { n with priority := max n.priority priority }
              insertLoop priority accessTime fuel s { w with node := child }
      else (s, w)

/-- The new leaf, and the event for it. -/
def addLeaf (s : EventCache H) (w : InsertWalk) (priority : Int) : EventCache H :=
  (s.onCache fun c => c.addLeaf w priority).recordStoreEvent s.cache.nodes.size

/-- `_insert_helper` -/
def insertHelper (s : EventCache H) (key : RadixKey) (value : List Index) (priority : Int) :
    Nat × EventCache H :=
  let accessTime := s.cache.clock
  let s := s.onCache fun c => (c.tick 1).nodeMut rootNode fun n =>
    { n with lastAccessTime := accessTime, priority := max n.priority priority }
  if key.length = 0 then (0, s)
  else
    let (s, w) := insertLoop priority accessTime (key.length + 1) s ⟨rootNode, key, value, 0⟩
    if w.key.length > 0 then (w.totalPrefixLength, s.addLeaf w priority)
    else (w.totalPrefixLength, s)

/-- `insert` -/
def insert (s : EventCache H) (params : InsertParams) : Nat × EventCache H :=
  if s.cache.disable then (0, s)
  else s.insertHelper params.key (params.value.getD params.key.tokenIds) params.priority

/-! ### Evicting -/

def evictLoop (h : EvictionHeap) (numTokens : Nat) :
    Nat → EventCache H → List (h.Priority × NodeId) → List Index → List Index × EventCache H
  | 0, s, _, freed => (freed, s)
  | fuel + 1, s, heap, freed =>
      if freed.length < numTokens then
        match h.heappop s.cache heap with
        | none => (freed, s)
        | some ((_, x), heap) =>
            let freed := freed ++ (s.cache.node x).value
            let s := s.onCache fun c => c.deleteLeaf x
            let parent := (s.cache.node x).parent
            let heap :=
              if (s.cache.node parent).children.entries = [] ∧
                  (s.cache.node parent).lockRef = 0 then
                (h.getPriority s.cache parent, parent) :: heap
              else heap
            evictLoop h numTokens fuel (s.recordRemoveEvent x) heap freed
      else (freed, s)

/-- `evict` -/
def evict (s : EventCache H) (h : EvictionHeap) (numTokens : Nat) : List Index × EventCache H :=
  if s.cache.disable then ([], s)
  else
    evictLoop h numTokens s.cache.nodes.size s
      (s.cache.evictableLeaves.map fun n => (h.getPriority s.cache n, n)) []

end EventCache

end Peek

/-
SGLang's radix cache, as the offline patch ships it
(`python/peek/offline/sglang_patches/patched_files/radix_cache.py`).

The tree is a heap of `TreeNode` objects.  An object's identity is its index in
`nodes`; a deleted object stays where it is, because whoever holds a reference to it
still sees it.  Hash sets and dictionaries are duplicate-free lists and `Map`s.

`time.monotonic()` is the number of the reading: the `n`-th reading of the clock is
`n`.  Only comparisons of times are ever made, and the clock is monotonic, so nothing
is lost but the exact durations.

Left out: bigram keys (`is_eagle`), host-side copies and hashes, events and metrics.
No node's value is ever `None` here, so `evicted` is false throughout.
`_check_extra_key` is left out too: a child found under a key's child key carries the
key's own extra key, as `RadixCache.WF.extraKey_kid` shows.
-/
import Peek.Base.Map
import Peek.Pending.Tree

namespace Peek

/-- A namespace tag: a LoRA id, a cache salt. -/
abbrev ExtraKey := String

/-- A slot of the KV cache. -/
abbrev Index := Nat

structure RadixKey where
  tokenIds : List Token
  extraKey : Option ExtraKey
  deriving DecidableEq

namespace RadixKey

/-- `key[:n]` -/
def take (key : RadixKey) (n : Nat) : RadixKey := { key with tokenIds := key.tokenIds.take n }

/-- `key[n:]` -/
def drop (key : RadixKey) (n : Nat) : RadixKey := { key with tokenIds := key.tokenIds.drop n }

def length (key : RadixKey) : Nat := key.tokenIds.length

end RadixKey

/-- A dictionary key made of one token, or of a tuple of them. -/
inductive PlainKey where
  | token (t : Token)
  | page (ts : List Token)
  deriving DecidableEq

/-- `plain_key`, or `(extra_key, plain_key)`. -/
structure ChildKey where
  extraKey : Option ExtraKey
  plain : PlainKey
  deriving DecidableEq

def getChildKey (key : RadixKey) (pageSize : Nat) : ChildKey :=
  { extraKey := key.extraKey
    plain := if pageSize = 1 then .token (key.tokenIds.headD 0)
      else .page (key.tokenIds.take pageSize) }

def keyMatchPageSize1 (key0 key1 : RadixKey) : Nat :=
  ((key0.tokenIds.zip key1.tokenIds).takeWhile fun p => p.1 = p.2).length

/-- The `while i < min_len` loop of `_key_match_paged`. -/
def keyMatchPagedLoop (key0 key1 : List Token) (pageSize : Nat) : Nat → Nat → Nat
  | 0, i => i
  | fuel + 1, i =>
      if i < min key0.length key1.length then
        if (key0.drop i).take pageSize ≠ (key1.drop i).take pageSize then i
        else keyMatchPagedLoop key0 key1 pageSize fuel (i + pageSize)
      else i

def keyMatchPaged (key0 key1 : RadixKey) (pageSize : Nat) : Nat :=
  keyMatchPagedLoop key0.tokenIds key1.tokenIds pageSize (min key0.length key1.length) 0

def keyMatch (pageSize : Nat) (key0 key1 : RadixKey) : Nat :=
  if pageSize = 1 then keyMatchPageSize1 key0 key1 else keyMatchPaged key0 key1 pageSize

structure TreeNode where
  children : Map ChildKey NodeId
  /-- `None` for the root, where it is never read. -/
  parent : NodeId
  key : RadixKey
  value : List Index
  lockRef : Int
  lastAccessTime : Nat
  creationTime : Nat
  hitCount : Nat
  priority : Int
  queueRefCount : Nat
  depth : Nat
  deriving DecidableEq

/-- `TreeNode(priority=...)`, built at the given clock reading. -/
def TreeNode.new (now : Nat) (priority : Int) : TreeNode :=
  { children := ∅, parent := 0, key := ⟨[], none⟩, value := [], lockRef := 0
    lastAccessTime := now, creationTime := now + 1, hitCount := 0, priority := priority
    queueRefCount := 0, depth := 0 }

instance : Inhabited TreeNode := ⟨TreeNode.new 0 0⟩

structure RadixCache where
  nodes : Array TreeNode
  evictableLeaves : List NodeId
  evictableSize : Int
  protectedSize : Int
  pageSize : Nat
  disable : Bool
  /-- How often `time.monotonic()` has been read. -/
  clock : Nat
  deriving DecidableEq

structure MatchResult where
  deviceIndices : List Index
  lastDeviceNode : NodeId
  deriving DecidableEq

namespace RadixCache

def rootNode : NodeId := 0

/-- `-sys.maxsize` -/
def minPriority : Int := -9223372036854775807

/-- A cache as `reset` leaves it. -/
def new (pageSize : Nat) (disable : Bool) : RadixCache :=
  { nodes := #[{ TreeNode.new 0 minPriority with lockRef := 1 }], evictableLeaves := []
    evictableSize := 0, protectedSize := 0, pageSize := pageSize, disable := disable, clock := 2 }

def createSimulated : RadixCache := new 1 false

def node (c : RadixCache) (n : NodeId) : TreeNode := c.nodes.getD n default

def nodeMut (c : RadixCache) (n : NodeId) (f : TreeNode → TreeNode) : RadixCache :=
  { c with nodes := c.nodes.modify n f }

/-- Keep a new object. -/
def push (c : RadixCache) (node : TreeNode) : RadixCache :=
  { c with nodes := c.nodes.push node }

/-- `time.monotonic()`, read `k` times. -/
def tick (c : RadixCache) (k : Nat) : RadixCache := { c with clock := c.clock + k }

/-! ### Leaves -/

def updateLeafStatus (c : RadixCache) (n : NodeId) : RadixCache :=
  if (c.node n).lockRef > 0 then { c with evictableLeaves := c.evictableLeaves.erase n }
  else if (c.node n).children.entries ≠ [] then
    { c with evictableLeaves := c.evictableLeaves.erase n }
  else { c with evictableLeaves := c.evictableLeaves.insert n }

/-! ### Matching -/

/--
Put a new node holding the first `splitLen` tokens above `child`, which keeps the rest.
Returns the new node.
-/
def splitNode (c : RadixCache) (child : NodeId) (splitLen : Nat) : RadixCache × NodeId :=
  let ch := c.node child
  let newNode :=
    { TreeNode.new c.clock ch.priority with
      children := AList.singleton (getChildKey (ch.key.drop splitLen) c.pageSize) child
      parent := ch.parent
      lockRef := ch.lockRef
      queueRefCount := ch.queueRefCount
      key := ch.key.take splitLen
      value := ch.value.take splitLen
      depth := (c.node ch.parent).depth + splitLen }
  let id := c.nodes.size
  let c := (c.push newNode).tick 2
  let c := c.nodeMut child fun n =>
    { n with parent := id, key := ch.key.drop splitLen, value := ch.value.drop splitLen }
  let c := c.nodeMut ch.parent fun n =>
    { n with children := n.children.insert (getChildKey ch.key c.pageSize) id }
  (c, id)

def matchLoop (updateLru : Bool) (accessTime : Nat) :
    Nat → RadixCache → NodeId → RadixKey → List Index → RadixCache × List Index × NodeId
  | 0, c, node, _, value => (c, value, node)
  | fuel + 1, c, node, key, value =>
      if key.length > 0 then
        match (c.node node).children.lookup (getChildKey key c.pageSize) with
        | none => (c, value, node)
        | some child =>
            let c := if updateLru then
                c.nodeMut child fun n => { n with lastAccessTime := accessTime }
              else c
            let prefixLen := keyMatch c.pageSize (c.node child).key key
            if prefixLen < (c.node child).key.length then
              let (c, newNode) := c.splitNode child prefixLen
              let c := if updateLru then
                  c.nodeMut newNode fun n => { n with hitCount := n.hitCount + 1 }
                else c
              (c, value ++ (c.node newNode).value, newNode)
            else
              let c := if updateLru then
                  c.nodeMut child fun n => { n with hitCount := n.hitCount + 1 }
                else c
              matchLoop updateLru accessTime fuel c child (key.drop prefixLen)
                (value ++ (c.node child).value)
      else (c, value, node)

def matchPrefixHelper (updateLru : Bool) (c : RadixCache) (key : RadixKey) :
    RadixCache × List Index × NodeId :=
  let accessTime := c.clock
  let c := if updateLru then
      (c.tick 1).nodeMut rootNode fun n => { n with lastAccessTime := accessTime }
    else c
  matchLoop updateLru accessTime key.length c rootNode key []

def emptyMatchResult : MatchResult := { deviceIndices := [], lastDeviceNode := rootNode }

/-- `key` cut down to whole pages. -/
def pageAlign (c : RadixCache) (key : RadixKey) : RadixKey :=
  if c.pageSize ≠ 1 then key.take (key.length / c.pageSize * c.pageSize) else key

/-- `match_prefix` and `match_prefix_readonly`, which differ in `update_lru` only. -/
def matchPrefixWith (updateLru : Bool) (c : RadixCache) (key : RadixKey) :
    MatchResult × RadixCache :=
  if c.disable ∨ key.length = 0 then (emptyMatchResult, c)
  else
    let key := c.pageAlign key
    if key.length = 0 then (emptyMatchResult, c)
    else
      let (c, value, lastNode) := c.matchPrefixHelper updateLru key
      ({ deviceIndices := value, lastDeviceNode := lastNode }, c)

def matchPrefix (c : RadixCache) (key : RadixKey) : MatchResult × RadixCache :=
  matchPrefixWith true c key

def matchPrefixReadonly (c : RadixCache) (key : RadixKey) : MatchResult × RadixCache :=
  matchPrefixWith false c key

/-! ### Inserting -/

/-- Where an insertion's walk ended: the node, what is left of key and value, tokens passed. -/
structure InsertWalk where
  node : NodeId
  key : RadixKey
  value : List Index
  totalPrefixLength : Nat
  deriving DecidableEq

def insertLoop (priority : Int) (accessTime : Nat) :
    Nat → RadixCache → InsertWalk → RadixCache × InsertWalk
  | 0, c, w => (c, w)
  | fuel + 1, c, w =>
      if w.key.length > 0 then
        match (c.node w.node).children.lookup (getChildKey w.key c.pageSize) with
        | none => (c, w)
        | some child =>
            let c := c.nodeMut child fun n => { n with lastAccessTime := accessTime }
            let prefixLen := keyMatch c.pageSize (c.node child).key w.key
            let w :=
              { w with
                key := w.key.drop prefixLen, value := w.value.drop prefixLen
                totalPrefixLength := w.totalPrefixLength + prefixLen }
            if prefixLen < (c.node child).key.length then
              let (c, newNode) := c.splitNode child prefixLen
              let c := c.nodeMut newNode fun n => { n with priority := max n.priority priority }
              insertLoop priority accessTime fuel c { w with node := newNode }
            else
              let c := c.nodeMut child fun n => { n with priority := max n.priority priority }
              insertLoop priority accessTime fuel c { w with node := child }
      else (c, w)

/-- Hang the rest of the key under the node the walk ended at, leaf status aside. -/
def linkLeaf (c : RadixCache) (w : InsertWalk) (priority : Int) : RadixCache :=
  let newNode :=
    { TreeNode.new c.clock priority with
      parent := w.node, key := w.key, value := w.value
      depth := (c.node w.node).depth + w.key.length }
  let id := c.nodes.size
  let childKey := getChildKey w.key c.pageSize
  let c := (c.push newNode).tick 2
  let c := c.nodeMut w.node fun n => { n with children := n.children.insert childKey id }
  { c with evictableSize := c.evictableSize + w.key.length }

def addLeaf (c : RadixCache) (w : InsertWalk) (priority : Int) : RadixCache :=
  ((c.linkLeaf w priority).updateLeafStatus w.node).updateLeafStatus c.nodes.size

def insertHelper (c : RadixCache) (key : RadixKey) (value : List Index) (priority : Int) :
    Nat × RadixCache :=
  let accessTime := c.clock
  let c := (c.tick 1).nodeMut rootNode fun n =>
    { n with lastAccessTime := accessTime, priority := max n.priority priority }
  if key.length = 0 then (0, c)
  else
    let (c, w) := insertLoop priority accessTime (key.length + 1) c ⟨rootNode, key, value, 0⟩
    if w.key.length > 0 then (w.totalPrefixLength, c.addLeaf w priority)
    else (w.totalPrefixLength, c)

/-- A key to insert, with one index per token; without indices the tokens stand in. -/
structure InsertParams where
  key : RadixKey
  value : Option (List Index)
  priority : Int
  value_length : ∀ v, value = some v → v.length = key.length

/-- Insert a key; returns the length of the prefix that was there already. -/
def insert (c : RadixCache) (params : InsertParams) : Nat × RadixCache :=
  if c.disable then (0, c)
  else c.insertHelper params.key (params.value.getD params.key.tokenIds) params.priority

/-! ### Locks and queue references -/

/-- `while node != self.root_node: f(node); node = node.parent` -/
def climb (f : NodeId → RadixCache → RadixCache) : Nat → NodeId → RadixCache → RadixCache
  | 0, _, c => c
  | fuel + 1, n, c =>
      if n = rootNode then c
      else
        let c := f n c
        climb f fuel (c.node n).parent c

def incLockRef (c : RadixCache) (n : NodeId) : RadixCache :=
  if c.disable then c
  else
    climb (fun n c =>
      let c := if (c.node n).lockRef = 0 then
          { c with
            evictableSize := c.evictableSize - (c.node n).key.length
            protectedSize := c.protectedSize + (c.node n).key.length }
        else c
      (c.nodeMut n fun m => { m with lockRef := m.lockRef + 1 }).updateLeafStatus n)
      c.nodes.size n c

def decLockRef (c : RadixCache) (n : NodeId) : RadixCache :=
  if c.disable then c
  else
    climb (fun n c =>
      let c := if (c.node n).lockRef = 1 then
          { c with
            evictableSize := c.evictableSize + (c.node n).key.length
            protectedSize := c.protectedSize - (c.node n).key.length }
        else c
      (c.nodeMut n fun m => { m with lockRef := m.lockRef - 1 }).updateLeafStatus n)
      c.nodes.size n c

/-! ### Evicting -/

def deleteLeaf (c : RadixCache) (n : NodeId) : RadixCache :=
  let key := getChildKey (c.node n).key c.pageSize
  let parent := (c.node n).parent
  let c := c.nodeMut parent fun p => { p with children := p.children.erase key }
  let c := { c with evictableSize := c.evictableSize - (c.node n).key.length }
  let c := { c with evictableLeaves := c.evictableLeaves.erase n }
  c.updateLeafStatus parent

/--
The eviction strategy and the heap it is used with.  `heappop` may look at the nodes,
which are compared by last access where priorities tie; it takes one item out of the
heap, and takes none out of the empty one.
-/
structure EvictionHeap where
  Priority : Type
  getPriority : RadixCache → NodeId → Priority
  heappop : RadixCache → List (Priority × NodeId) →
    Option ((Priority × NodeId) × List (Priority × NodeId))
  pop_perm : ∀ c heap x rest, heappop c heap = some (x, rest) → heap.Perm (x :: rest)

def evictLoop (h : EvictionHeap) (numTokens : Nat) :
    Nat → RadixCache → List (h.Priority × NodeId) → List Index → List Index × RadixCache
  | 0, c, _, freed => (freed, c)
  | fuel + 1, c, heap, freed =>
      if freed.length < numTokens then
        match h.heappop c heap with
        | none => (freed, c)
        | some ((_, x), heap) =>
            let freed := freed ++ (c.node x).value
            let c := c.deleteLeaf x
            let parent := (c.node x).parent
            let heap :=
              if (c.node parent).children.entries = [] ∧ (c.node parent).lockRef = 0 then
                (h.getPriority c parent, parent) :: heap
              else heap
            evictLoop h numTokens fuel c heap freed
      else (freed, c)

/-- Evict at least `numTokens` tokens, as far as there are leaves; returns the freed indices. -/
def evict (c : RadixCache) (h : EvictionHeap) (numTokens : Nat) : List Index × RadixCache :=
  if c.disable then ([], c)
  else
    evictLoop h numTokens c.nodes.size c
      (c.evictableLeaves.map fun n => (h.getPriority c n, n)) []

end RadixCache

/-- A cache that has seen one prompt, under no namespace. -/
def plainCache : RadixCache :=
  (RadixCache.createSimulated.insert ⟨⟨[1, 2, 3], none⟩, some [10, 11, 12], 0, by decide⟩).2

end Peek

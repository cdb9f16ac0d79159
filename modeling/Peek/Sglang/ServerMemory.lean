/-
The KV slots of a running server (`patched_files/radix_cache.py`).

A request that is admitted takes the slots its longest cached prefix has, locks the node that
ends the prefix, and is given free slots for the tokens it computes.  `cache_unfinished_req` and
`cache_finished_req` hand the slots over to the tree: duplicates of what the tree has got in the
meantime go back to the allocator, and so does what does not fill a page.

The two functions are translated; `disable_finished_insert` is a parameter of the one that
reads it, and bigram keys (`is_eagle`) are left out.  What is around them is not in this
repository: the allocator, which hands out free slots and is given them back, and the batches,
which put slots into a request's row of `req_to_token` and compute what belongs there.  It is
the `Step` relation, with whatever choice of slots and whatever order of calls.
-/
import Peek.Sglang.Sizes
import Peek.Sglang.SlotContent

namespace Peek

/-- A row of `req_to_token`; it is allocated wide enough for any request. -/
abbrev Row := Nat → Index

namespace Row

/-- `row[:n]` -/
def upTo (row : Row) (n : Nat) : List Index := (List.range n).map row

/-- `row[start : start + len(indices)] = indices` -/
def write (row : Row) (start : Nat) (indices : List Index) : Row := fun j =>
  if start ≤ j then indices.getD (j - start) (row j) else row j

@[simp] theorem length_upTo (row : Row) (n : Nat) : (row.upTo n).length = n := by
  unfold upTo
  rw [List.length_map, List.length_range]

end Row

/-- `xs[start:stop]` -/
def slice {α : Type} (xs : List α) (start stop : Nat) : List α := (xs.take stop).drop start

/-- The fields of a running request that the cache reads and writes. -/
structure RunningReq where
  originInputIds : List Token
  outputIds : List Token
  extraKey : Option ExtraKey
  priority : Option Int
  fillIds : List Token
  prefixIndices : List Index
  lastNode : NodeId
  cacheProtectedLen : Nat
  /-- What `pop_committed_kv_cache` returns. -/
  kvCommittedLen : Nat
  /-- The request's row of `req_to_token`. -/
  row : Row

namespace RunningReq

/-- `origin_input_ids + output_ids` -/
def tokens (r : RunningReq) : List Token := r.originInputIds ++ r.outputIds

/-- The key of the first `n` tokens. -/
def key (r : RunningReq) (n : Nat) : RadixKey := ⟨r.tokens.take n, r.extraKey⟩

/-- What `cache_unfinished_req` writes into the request, once its pages have been matched. -/
def setCached (r : RunningReq) (m : MatchResult) : RunningReq :=
  let kvIndices := r.row.upTo r.fillIds.length
  let newIndices := m.deviceIndices
  { r with
    row := r.row.write r.cacheProtectedLen (newIndices.drop r.cacheProtectedLen)
    cacheProtectedLen := newIndices.length
    prefixIndices :=
      if newIndices.length < kvIndices.length then newIndices ++ kvIndices.drop newIndices.length
      else newIndices
    lastNode := m.lastDeviceNode }

end RunningReq

namespace RadixCache

/-- `_page_align_keys` -/
def pageAlignKeys (c : RadixCache) (key : List Token) : List Token :=
  if c.pageSize = 1 then key else key.take (key.length / c.pageSize * c.pageSize)

theorem length_pageAlignKeys_le (c : RadixCache) (key : List Token) :
    (c.pageAlignKeys key).length ≤ key.length := by
  unfold pageAlignKeys
  split
  · exact Nat.le_refl _
  · exact List.length_take_le' _ _

/-- The insertion of the whole pages of `tokenIds`, with the slots of `row`. -/
def reqParams (c : RadixCache) (req : RunningReq) (tokenIds : List Token) : InsertParams where
  key := ⟨c.pageAlignKeys tokenIds, req.extraKey⟩
  value := some ((req.row.upTo tokenIds.length).take (c.pageAlignKeys tokenIds).length)
  priority := req.priority.getD 0
  value_length v hv := by
    rw [Option.some.injEq] at hv
    rw [← hv, List.length_take, Row.length_upTo]
    exact Nat.min_eq_left (c.length_pageAlignKeys_le tokenIds)

/-- Cache a request when it finishes; returns what is freed, in this order. -/
def cacheFinishedReq (c : RadixCache) (disableFinishedInsert : Bool) (req : RunningReq)
    (isInsert : Bool) : List Index × RadixCache :=
  let isInsert := if disableFinishedInsert then false else isInsert
  let kvCommittedLen := req.kvCommittedLen
  if c.disable then (req.row.upTo kvCommittedLen, c)
  else
    let tokenIds := req.tokens.take kvCommittedLen
    let kvIndices := req.row.upTo tokenIds.length
    let keys := c.pageAlignKeys tokenIds
    let (freed, c) := if isInsert then
        let (newPrefixLen, c) := c.insert (c.reqParams req tokenIds)
        -- free the duplicates that were already in the tree
        (slice kvIndices req.cacheProtectedLen newPrefixLen, c)
      else (slice kvIndices req.cacheProtectedLen keys.length, c)
    -- free the unaligned tail
    (freed ++ kvIndices.drop keys.length, c.decLockRef req.lastNode)

/--
Cache a request that goes on; returns what is freed, and the request as it goes on.  `none` is
the failure of `assert len(new_indices) == len(keys)`.
-/
def cacheUnfinishedReq (c : RadixCache) (req : RunningReq) :
    Option (List Index × RunningReq × RadixCache) :=
  if c.disable then some ([], req, c)
  else
    let tokenIds := req.fillIds
    let kvIndices := req.row.upTo tokenIds.length
    let keys := c.pageAlignKeys tokenIds
    let (newPrefixLen, c) := c.insert (c.reqParams req tokenIds)
    let freed := slice kvIndices req.cacheProtectedLen newPrefixLen
    -- the prefix indices could be updated, reuse it
    let (matchResult, c) := c.matchPrefix ⟨keys, req.extraKey⟩
    if matchResult.deviceIndices.length = keys.length then
      some (freed, req.setCached matchResult,
        (c.decLockRef req.lastNode).incLockRef matchResult.lastDeviceNode)
    else none

end RadixCache

namespace RunningReq

/-- A request that is admitted with the match of its first tokens. -/
def scheduled (originInputIds outputIds : List Token) (extraKey : Option ExtraKey)
    (priority : Option Int) (m : MatchResult) : RunningReq where
  originInputIds := originInputIds
  outputIds := outputIds
  extraKey := extraKey
  priority := priority
  fillIds := (originInputIds ++ outputIds).take m.deviceIndices.length
  prefixIndices := m.deviceIndices
  lastNode := m.lastDeviceNode
  cacheProtectedLen := m.deviceIndices.length
  kvCommittedLen := m.deviceIndices.length
  row := fun j => m.deviceIndices.getD j 0

/-- Slots for the next tokens, and their key-value pairs in them. -/
def compute (r : RunningReq) (slots : List Index) : RunningReq :=
  { r with
    row := r.row.write r.kvCommittedLen slots
    kvCommittedLen := r.kvCommittedLen + slots.length }

/-- A prefill, of which `fill_ids` takes note. -/
def extend (r : RunningReq) (slots : List Index) : RunningReq :=
  { r.compute slots with fillIds := r.tokens.take (r.kvCommittedLen + slots.length) }

/-- A token was sampled. -/
def sample (r : RunningReq) (t : Token) : RunningReq := { r with outputIds := r.outputIds ++ [t] }

/-- What belongs into the slots of the next `n` tokens. -/
def nextEntries (r : RunningReq) (n : Nat) : List Content :=
  (r.key (r.kvCommittedLen + n)).entries.drop r.kvCommittedLen

/-- The slots that are the request's own, and not the tree's. -/
def owned (r : RunningReq) : List Index := (r.row.upTo r.kvCommittedLen).drop r.cacheProtectedLen

end RunningReq

/-- The cache, the allocator's free slots, the running requests, and what the slots hold. -/
structure Server where
  cache : RadixCache
  disableFinishedInsert : Bool
  free : List Index
  running : List RunningReq
  kv : Index → Option Content

namespace Server

/-- A server that starts, with all of its slots free. -/
def new (pageSize : Nat) (disable disableFinishedInsert : Bool) (pool : List Index) : Server where
  cache := RadixCache.new pageSize disable
  disableFinishedInsert := disableFinishedInsert
  free := pool
  running := []
  kv _ := none

/-- The slots that running requests own. -/
def owned (s : Server) : List Index := s.running.flatMap RunningReq.owned

/-- One thing that happens to the memory of the server. -/
inductive Step : Server → Server → Prop
  /-- The scheduler admits a request: it matches a prefix of its tokens and locks what it finds. -/
  | schedule (s : Server) (originInputIds outputIds : List Token) (extraKey : Option ExtraKey)
      (priority : Option Int) (n : Nat) {m : MatchResult} {c : RadixCache}
      (hm : s.cache.matchPrefix ⟨(originInputIds ++ outputIds).take n, extraKey⟩ = (m, c)) :
      Step s { s with
        cache := c.incLockRef m.lastDeviceNode
        running := .scheduled originInputIds outputIds extraKey priority m :: s.running }
  /-- A prefill of the next tokens, a whole prompt or a chunk of it, in slots that are free. -/
  | extend (s : Server) {before after : List RunningReq} {r : RunningReq}
      (hr : s.running = before ++ r :: after) {slots rest : List Index}
      (hfree : s.free.Perm (slots ++ rest))
      (hle : r.kvCommittedLen + slots.length ≤ r.tokens.length) :
      Step s { s with
        free := rest
        running := before ++ r.extend slots :: after
        kv := Cells.write s.kv slots (r.nextEntries slots.length) }
  /-- A decoding step, or several of them at once, with nothing noted in `fill_ids`. -/
  | decode (s : Server) {before after : List RunningReq} {r : RunningReq}
      (hr : s.running = before ++ r :: after) {slots rest : List Index}
      (hfree : s.free.Perm (slots ++ rest))
      (hle : r.kvCommittedLen + slots.length ≤ r.tokens.length) :
      Step s { s with
        free := rest
        running := before ++ r.compute slots :: after
        kv := Cells.write s.kv slots (r.nextEntries slots.length) }
  | sample (s : Server) {before after : List RunningReq} {r : RunningReq}
      (hr : s.running = before ++ r :: after) (t : Token) :
      Step s { s with running := before ++ r.sample t :: after }
  | cacheUnfinishedReq (s : Server) {before after : List RunningReq} {r r' : RunningReq}
      (hr : s.running = before ++ r :: after) {freed : List Index} {c : RadixCache}
      (hcache : s.cache.cacheUnfinishedReq r = some (freed, r', c)) :
      Step s { s with
        cache := c, free := s.free ++ freed, running := before ++ r' :: after }
  /-- A request finishes, or is retracted, when it is not inserted. -/
  | cacheFinishedReq (s : Server) {before after : List RunningReq} {r : RunningReq}
      (hr : s.running = before ++ r :: after) (isInsert : Bool) {freed : List Index}
      {c : RadixCache}
      (hcache : s.cache.cacheFinishedReq s.disableFinishedInsert r isInsert = (freed, c)) :
      Step s { s with cache := c, free := s.free ++ freed, running := before ++ after }
  | evict (s : Server) (e : RadixCache.EvictionHeap) (numTokens : Nat) {freed : List Index}
      {c : RadixCache} (hevict : s.cache.evict e numTokens = (freed, c)) :
      Step s { s with cache := c, free := s.free ++ freed }
  /-- A waiting request is matched, with or without a trace in the access times. -/
  | matchPrefix (s : Server) (updateLru : Bool) (key : RadixKey) :
      Step s { s with cache := (s.cache.matchPrefixWith updateLru key).2 }
  | incQueueRef (s : Server) (n : NodeId) (hn : s.cache.InTree n) :
      Step s { s with cache := s.cache.incQueueRef n }
  | resetAllQueueRefs (s : Server) : Step s { s with cache := s.cache.resetAllQueueRefs }

/-- The states that some run of such steps makes of a server that starts. -/
def Reachable (pageSize : Nat) (disable disableFinishedInsert : Bool) (pool : List Index)
    (s : Server) : Prop :=
  Relation.ReflTransGen Step (new pageSize disable disableFinishedInsert pool) s

end Server

end Peek

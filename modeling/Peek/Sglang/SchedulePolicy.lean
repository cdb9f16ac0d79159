/-
Queued requests, and SGLang's own policy for them, as the offline patch ships it
(`patched_files/schedule_policy.py`).

A request carries what the last match of its prompt found.  `last_host_node` and
`host_hit_length` are left out: the radix cache sets them to the node and to zero.

`_compute_prefix_matches` resets its auxiliary tree first, which leaves it as
`create_simulated` built it.
-/
import Peek.Base.ForEach
import Peek.Sglang.RadixCache
import Mathlib.Data.Finset.Insert
import Mathlib.Data.Int.ConditionallyCompleteOrder
import Mathlib.Data.List.Sort
import Mathlib.Order.ConditionallyCompleteLattice.Basic
import Mathlib.Order.WithBot

namespace Peek

/-- A request's id, as the client sent it. -/
abbrev ReqId := String

structure Req where
  rid : ReqId
  originInputIds : List Token
  outputIds : List Token
  extraKey : Option ExtraKey
  /-- Empty, or `None`, before the first match. -/
  prefixIndices : List Index
  lastNode : Option NodeId
  /-- `_peek_matched`: set when an engine has matched the request with its group. -/
  peekMatched : Bool
  deriving DecidableEq, Inhabited

namespace Req

/-- `origin_input_ids + output_ids` -/
def tokens (r : Req) : List Token := r.originInputIds ++ r.outputIds

def key (r : Req) : RadixKey := { tokenIds := r.tokens, extraKey := r.extraKey }

/-- Write a match result into the request. -/
def setMatch (r : Req) (m : MatchResult) : Req :=
  { r with prefixIndices := m.deviceIndices, lastNode := some m.lastDeviceNode }

end Req

namespace SchedulePolicy

/-- What the loop of `_compute_prefix_matches` carries. -/
structure PrefixMatches where
  treeCache : RadixCache
  waitingQueueRadixTree : RadixCache
  temporaryDeprioritized : Finset ReqId

/-- `InsertParams` with one dummy index for each token. -/
def dummyParams (key : RadixKey) : RadixCache.InsertParams where
  key := key
  value := some (List.replicate key.length 0)
  priority := 0
  value_length v hv := by
    rw [Option.some.injEq] at hv
    rw [← hv, List.length_replicate]

/-- A request with a short match: deprioritize it, or put its prompt into the auxiliary tree. -/
def inBatchTurn (deprioritizeThreshold : Int) (s : PrefixMatches) (r : Req) : PrefixMatches :=
  let (inBatch, tree) := s.waitingQueueRadixTree.matchPrefix r.key
  if (inBatch.deviceIndices.length : Int) ≥ deprioritizeThreshold then
    { s with
      waitingQueueRadixTree := tree
      temporaryDeprioritized := insert r.rid s.temporaryDeprioritized }
  else { s with waitingQueueRadixTree := (tree.insert (dummyParams r.key)).2 }

/-- One turn of `_compute_prefix_matches`. -/
def prefixMatchTurn (checkThreshold deprioritizeThreshold : Int) (s : PrefixMatches) (r : Req) :
    PrefixMatches × Req :=
  if r.peekMatched then (s, r)
  else
    let (found, treeCache) := s.treeCache.matchPrefix r.key
    let s := { s with treeCache := treeCache }
    let r := r.setMatch found
    (if (r.prefixIndices.length : Int) ≤ checkThreshold then
      inBatchTurn deprioritizeThreshold s r else s, r)

/--
Match every waiting request against the cache, and find those that share a long enough
prefix with an earlier one and had better wait for it.
-/
def computePrefixMatches (checkThreshold deprioritizeThreshold : Int) (treeCache : RadixCache)
    (waitingQueue : List Req) : PrefixMatches × List Req :=
  forEach (prefixMatchTurn checkThreshold deprioritizeThreshold)
    { treeCache := treeCache
      waitingQueueRadixTree := RadixCache.createSimulated
      temporaryDeprioritized := ∅ } waitingQueue

/-- `-len(r.prefix_indices)`, or `float("inf")` for a deprioritized request. -/
def longestPrefixKey (temporaryDeprioritized : Finset ReqId) (r : Req) : WithTop Int :=
  if r.rid ∈ temporaryDeprioritized then ⊤ else ((-(r.prefixIndices.length : Int) : Int) : WithTop Int)

/-- Sort the waiting queue by longest prefix match; `list.sort` is stable. -/
def sortByLongestPrefix (waitingQueue : List Req) (temporaryDeprioritized : Finset ReqId) :
    List Req :=
  waitingQueue.insertionSort fun a b =>
    longestPrefixKey temporaryDeprioritized a ≤ longestPrefixKey temporaryDeprioritized b

end SchedulePolicy

end Peek

/-
Group-level scheduling on SGLang (`python/peek/offline/scheduler.py`).

Requests with the same first tokens form a group.  One of each group is matched against
the cache, and what it found is copied to the others.  The groups are then put in the order
of a score that mixes what is cached with what is pending and how long it has waited.

The scores are floating-point numbers that depend on the clock.  Which order they give is
left open: any reordering of the groups (`Scoring`).
-/
import Peek.Base.Groups
import Peek.Sglang.Carried
import Peek.Sglang.QueueRefs

namespace Peek

/-- `_KEY_LEN` -/
def keyLen : Nat := 64

/-- The prefix a request is grouped by. -/
def prefixKey (r : Req) : List Token :=
  if r.originInputIds.length ≥ keyLen then r.originInputIds.take keyLen
  else if r.originInputIds.length > 0 then r.originInputIds
  else []

/-- The loop of `detect_sharing_sglang`. -/
def sharingLoop : List (List Token) → List Req → Bool
  | _, [] => false
  | seen, r :: queue =>
      if r.originInputIds ≠ [] then
        if prefixKey r ∈ seen then true else sharingLoop (prefixKey r :: seen) queue
      else sharingLoop seen queue

/-- Do two of the requests share a prefix? -/
def detectSharing (waitingQueue : List Req) : Bool := sharingLoop [] waitingQueue

/-- The representative of a group. -/
def rep (members : List Req) : Req := members.headD default

/-- Match a group's representative and copy what it found to all members. -/
def matchGroup {κ : Type} (updateLru : Bool) (treeCache : RadixCache) (g : κ × List Req) :
    RadixCache × (κ × List Req) :=
  let (found, treeCache) := treeCache.matchPrefixWith updateLru (rep g.2).key
  (treeCache, (g.1, g.2.map fun r => { r.setMatch found with peekMatched := true }))

/-- The cache, and the attribute Peek keeps on it. -/
structure PeekCache where
  treeCache : RadixCache
  /-- `_peek_prev_protected`, from the first cycle on. -/
  prevProtected : Option (List NodeId)

/-- What the floating-point arithmetic decides. -/
structure Scoring where
  /-- `scored.sort(...)` -/
  sortGroups : RadixCache → List (List Req) → List (List Req)
  sortGroups_perm : ∀ c groups, (sortGroups c groups).Perm groups
  /-- `int(total_cached / avg_prefix_len)` -/
  capacity : RadixCache → List (List Req) → Nat

namespace PeekCache

/-- Take back the protection of the last cycle. -/
def resetProtection (s : PeekCache) : PeekCache :=
  { s with
    treeCache := match s.prevProtected with
      | some prev => prev.foldl RadixCache.clearQueueRefs s.treeCache
      | none => s.treeCache.resetAllQueueRefs }

def protect (s : PeekCache) (nodes : List NodeId) : PeekCache :=
  { treeCache := nodes.foldl RadixCache.incQueueRef s.treeCache, prevProtected := some nodes }

end PeekCache

/-- How many groups are protected: three quarters of those that fit into the cache. -/
def protectK (o : Scoring) (treeCache : RadixCache) (scored : List (List Req)) : Nat :=
  let capacity := if scored.length > 0 ∧ treeCache.totalSize > 0 then o.capacity treeCache scored
    else scored.length
  min scored.length (max 1 (capacity * 3 / 4))

/-- The nodes of the first groups that have something cached. -/
def protectedNodes (o : Scoring) (treeCache : RadixCache) (scored : List (List Req)) :
    List NodeId :=
  (scored.take (protectK o treeCache scored)).filterMap fun members =>
    if (rep members).prefixIndices ≠ [] then (rep members).lastNode else none

/-- `sglang_pre_schedule`; `queueAware` says whether eviction is. -/
def preSchedule (o : Scoring) (queueAware : Bool) (s : PeekCache) (waitingQueue : List Req) :
    Bool × PeekCache × List Req :=
  if detectSharing waitingQueue = false then (false, s, waitingQueue)
  else
    let s := if queueAware then s.resetProtection else s
    let (treeCache, groups) :=
      forEach (matchGroup false) s.treeCache (groupBy prefixKey waitingQueue)
    let s := { s with treeCache := treeCache }
    let scored := o.sortGroups treeCache (groups.map (·.2))
    if queueAware then (true, s.protect (protectedNodes o treeCache scored), scored.flatten)
    else (false, s, scored.flatten)

end Peek

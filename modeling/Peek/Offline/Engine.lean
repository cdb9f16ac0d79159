/-
The scheduling engine (`python/peek/offline/engine.py`).

A queue whose first request carries a tag is taken as sent by a dispatcher: it is grouped
by the tags alone, and matched group by group.  Any other queue is matched request by
request, except for the requests that a group match has marked, and then reordered.

The dispatcher that the first requests are removed from comes in `Offline/ClientPending.lean`;
it touches neither the cache nor the queue.
-/
import Peek.Offline.PeekRid
import Peek.Offline.Scheduler

namespace Peek

open SchedulePolicy

/-- The thresholds of in-batch prefix caching. -/
structure EngineConfig where
  checkThreshold : Int
  deprioritizeThreshold : Int

namespace PeekEngine

/-- `_has_peek_tags`: only the first request is looked at. -/
def hasPeekTags (waitingQueue : List Req) : Bool :=
  match waitingQueue with
  | [] => false
  | r :: _ => isTagged r.rid

def tagged (waitingQueue : List Req) : List Req := waitingQueue.filter fun r => isTagged r.rid

/-- The group key in a request's tag. -/
def groupKey (r : Req) : Option Int := (parsePeekRid r.rid).map fun tag => tag.2.1

/-- No tag makes `int` raise `ValueError`. -/
def TagsParse (waitingQueue : List Req) : Prop := ∀ r ∈ tagged waitingQueue, groupKey r ≠ none

instance (waitingQueue : List Req) : Decidable (TagsParse waitingQueue) :=
  inferInstanceAs (Decidable (∀ r ∈ tagged waitingQueue, groupKey r ≠ none))

/-- `tag_groups` -/
def tagGroups (waitingQueue : List Req) : List (Option Int × List Req) :=
  groupBy groupKey (tagged waitingQueue)

/-- `_run_tagged`; nothing is returned when a tag does not parse. -/
def runTagged (o : Scoring) (s : PeekCache) (waitingQueue : List Req) :
    Option Bool × PeekCache × List Req :=
  let s := s.resetProtection
  if ¬ TagsParse waitingQueue then (none, s, waitingQueue)
  else
    let (treeCache, groups) := forEach (matchGroup true) s.treeCache (tagGroups waitingQueue)
    let s := { s with treeCache := treeCache }
    let scored := o.sortGroups treeCache (groups.map (·.2))
    (some true, s.protect (protectedNodes o treeCache scored), scored.flatten)

/-- `queue_count * prefix_len` -/
def investment (members : List Req) : Nat := members.length * (rep members).originInputIds.length

/-- The groups that fit into the budget, the best investments first, and always one. -/
def targetLoop (cacheBudget : Nat) : List (List Token × List Req) → List (List Token) → Nat →
    List (List Token)
  | [], targets, _ => targets
  | (key, members) :: groups, targets, used =>
      let prefixLen := (rep members).originInputIds.length
      if used + prefixLen > cacheBudget ∧ targets ≠ [] then targets
      else targetLoop cacheBudget groups (key :: targets) (used + prefixLen)

/-- `_queue_depth_reorder`; returns the queue and the nodes to protect. -/
def queueDepthReorder (o : Scoring) (treeCache : RadixCache) (waitingQueue : List Req)
    (deprioritized : Finset ReqId) : List Req × List NodeId :=
  let groups := groupBy prefixKey waitingQueue
  let deprioritizedReqs := groups.flatMap fun g => g.2.filter fun r => r.rid ∈ deprioritized
  let normal := (groups.map fun g => (g.1, g.2.filter fun r => r.rid ∉ deprioritized)).filter
    fun g => g.2 ≠ []
  let stats := normal.insertionSort fun g g' => investment g'.2 ≤ investment g.2
  let cacheBudget := treeCache.totalSize * 3 / 4
  let targets := if cacheBudget > 0 then targetLoop cacheBudget stats [] 0
    else stats.map (·.1)
  let targetNodes := stats.filterMap fun g =>
    if targets.contains g.1 ∧ (rep g.2).prefixIndices ≠ [] then (rep g.2).lastNode else none
  ((o.sortGroups treeCache (stats.map (·.2))).flatten ++ deprioritizedReqs, targetNodes)

/-- `_run_full` -/
def runFull (o : Scoring) (cfg : EngineConfig) (s : PeekCache) (waitingQueue : List Req) :
    PeekCache × List Req :=
  let s := s.resetProtection
  let (found, waitingQueue) := computePrefixMatches cfg.checkThreshold cfg.deprioritizeThreshold
    s.treeCache waitingQueue
  let s := { s with treeCache := found.treeCache }
  let (waitingQueue, targetNodes) :=
    if waitingQueue.length > 1 ∧ detectSharing waitingQueue then
      queueDepthReorder o s.treeCache waitingQueue found.temporaryDeprioritized
    else (sortByLongestPrefix waitingQueue found.temporaryDeprioritized, [])
  (s.protect targetNodes, waitingQueue)

/-- `PeekEngine.run` -/
def run (o : Scoring) (cfg : EngineConfig) (s : PeekCache) (waitingQueue : List Req) :
    Option Bool × PeekCache × List Req :=
  if hasPeekTags waitingQueue then runTagged o s waitingQueue
  else
    let (s, waitingQueue) := runFull o cfg s waitingQueue
    (some true, s, waitingQueue)

end PeekEngine

end Peek

/-
The server-side reorderings lose no request.

Each of them takes the waiting queue apart and puts it together again: from the groups of a
trie, from a dictionary of lists, or from the groups that are ready and those that are not.
Whatever the parts are, the queue it leaves is the queue it was given, in some order
(`reorderings_perm`).

The model reads an attribute that is `None` as an empty list, as the code does where it asks
first.  Where it does not ask it raises, and it does so before it clears the queue (`Missing`).
-/
import Peek.Offline.GroupSchedule
import Peek.Offline.QueueKept

namespace Peek

/-- The order names every place of the queue once. -/
theorem filterMap_getElem_perm {α : Type} (queue : List α) {order : List Nat}
    (h : order.Perm (List.range queue.length)) : (order.filterMap fun idx => queue[idx]?).Perm queue := by
  have hmap : (List.range queue.length).map (fun idx => queue[idx]?) = queue.map some := by
    refine List.ext_getElem (by simp) fun i hi hi' => ?_
    rw [List.length_map] at hi'
    simp [hi']
  have hread : (List.range queue.length).filterMap (fun idx => queue[idx]?) = queue := by
    have hsome := congrArg (List.filterMap id) hmap
    rw [List.filterMap_map, List.filterMap_map] at hsome
    exact hsome.trans List.filterMap_some
  have hperm := h.filterMap fun idx => queue[idx]?
  rwa [hread] at hperm

/-! ### Group scheduling -/

theorem sglangGroupSchedule_perm (waitingQueue : List Req) (treeCache : RadixCache)
    (reorderThreshold : Int) :
    (sglangGroupSchedule waitingQueue treeCache reorderThreshold).Perm waitingQueue := by
  unfold sglangGroupSchedule
  split
  · exact List.Perm.refl _
  · split
    · exact List.Perm.refl _
    · refine filterMap_getElem_perm waitingQueue ?_
      have hperm := GroupSchedule.emitted_perm (waitingQueue.map (·.originInputIds))
        treeCache.cachedPrefixLength
      rwa [List.length_map] at hperm

theorem vllmGroupSchedule_perm {numBlocks : Nat} (newReqs : List QueuedReq)
    (blockPool : QueuePool numBlocks) (groupIds : List Nat) (reorderThreshold : Int) :
    (vllmGroupSchedule newReqs blockPool groupIds reorderThreshold).Perm newReqs := by
  unfold vllmGroupSchedule
  split
  · exact List.Perm.refl _
  · split
    · exact List.Perm.refl _
    · refine filterMap_getElem_perm newReqs ?_
      have hperm := GroupSchedule.emitted_perm (newReqs.map (·.blockHashes))
        (blockPool.cachedPrefixLength groupIds)
      rwa [List.length_map] at hperm

theorem sglangPostMatchReorder_perm (waitingQueue : List Req) :
    (sglangPostMatchReorder waitingQueue).Perm waitingQueue := by
  unfold sglangPostMatchReorder
  split
  · exact List.Perm.refl _
  · refine ((List.perm_insertionSort _ _).flatMap_right _).trans ?_
    rw [List.flatMap_map]
    exact flatten_groupBy_perm (fun r : Req => r.lastNode) waitingQueue

/-! ### The engine for vLLM -/

namespace VllmPeekEngine

variable {F : Type} (f : PyFloat F)

/-- A group moves from the one list to the other. -/
theorem promote_perm (ready buffering : List (ScoredGroup F)) :
    ((promote f ready buffering).1 ++ (promote f ready buffering).2).Perm (ready ++ buffering) := by
  unfold promote
  by_cases hready : ready = []
  · rw [if_pos hready, hready]
    have hsort : (sortByScore f buffering).Perm buffering := List.perm_insertionSort _ _
    cases hbest : sortByScore f buffering with
    | nil =>
        rw [hbest] at hsort
        exact hsort
    | cons best rest =>
        rw [hbest] at hsort
        exact hsort
  · rw [if_neg hready]

theorem members_sortMembers_perm (groups : List (ScoredGroup F)) :
    (((sortByScore f groups).map ScoredGroup.sortMembers).flatMap (·.members)).Perm
      (groups.flatMap (·.members)) := by
  rw [List.flatMap_map]
  refine List.Perm.trans (List.Perm.flatMap_left _ fun g _ => ?_)
    ((List.perm_insertionSort _ groups).flatMap_right _)
  exact List.perm_insertionSort _ g.members

/-- Ready or not, all members of all groups are in the new order. -/
theorem reorderByScore_perm (now : F) (queueDepth : Nat) (firstSeen : Map (List BlockHash) F)
    (groups : List (List BlockHash × List QueuedReq)) (scored : List (ScoredGroup F)) :
    (reorderByScore f now queueDepth firstSeen groups scored).1.Perm
      (scored.flatMap (·.members)) := by
  unfold reorderByScore
  simp only
  set isNow := fun g => isReady f now queueDepth (seeGroups now (groups.map (·.1)) firstSeen) g
  refine ((members_sortMembers_perm f _).append (members_sortMembers_perm f _)).trans ?_
  rw [← List.flatMap_append]
  refine ((promote_perm f _ _).trans ?_).flatMap_right _
  exact List.filter_append_perm isNow scored

theorem run_perm {numBlocks : Nat} (e : VllmPeekEngine F) (pool : QueuePool numBlocks)
    (now now' : F) (waiting : List QueuedReq) : (e.run f pool now now' waiting).2.2.Perm waiting := by
  unfold run
  split
  · exact List.Perm.refl _
  · refine ((reorderByScore_perm f _ _ _ _ _).append_right _).trans ?_
    have hgroups := flatten_groupBy_perm QueuedReq.hashKey (waiting.filter QueuedReq.isNew)
    unfold matchAndScoreGroups
    rw [List.flatMap_map]
    exact (hgroups.append_right _).trans (List.filter_append_perm QueuedReq.isNew waiting)

end VllmPeekEngine

/-! ### Requests without token ids -/

/-- Who has `None` for an attribute that is read as an empty list where it may be missing. -/
structure Missing where
  originInputIds : Req → Bool
  prefixIndices : Req → Bool

/-- The queue after `_queue_depth_reorder`, which asks for the length of the first tokens of
every group, and for those of all cached prefixes. -/
def queueDepthReordered (missing : Missing) (o : Scoring) (treeCache : RadixCache)
    (waitingQueue : List Req) (deprioritized : Finset ReqId) : List Req :=
  let normal := ((groupBy prefixKey waitingQueue).map fun g =>
    g.2.filter fun r => r.rid ∉ deprioritized).filter fun members => members ≠ []
  if normal.any fun members =>
      missing.originInputIds (rep members) || members.any missing.prefixIndices then waitingQueue
  else (PeekEngine.queueDepthReorder o treeCache waitingQueue deprioritized).1

/-- The queue after `sglang_pre_schedule`, which asks for the first tokens of every group; the
requests as they were sent. -/
def preScheduled (missing : Missing) (o : Scoring) (queueAware : Bool) (s : PeekCache)
    (waitingQueue : List Req) : List Req :=
  if detectSharing waitingQueue = true ∧
      (groupBy prefixKey waitingQueue).any fun g => missing.originInputIds (rep g.2) then
    waitingQueue.map Req.sent
  else (preSchedule o queueAware s waitingQueue).2.2.map Req.sent

/-- The queue after `sglang_post_match_reorder`, which asks for the lengths of all prefixes. -/
def postMatchReordered (missing : Missing) (waitingQueue : List Req) : List Req :=
  if waitingQueue.length > 1 ∧ waitingQueue.any missing.prefixIndices then waitingQueue
  else sglangPostMatchReorder waitingQueue

theorem queueDepthReordered_perm (missing : Missing) (o : Scoring) (treeCache : RadixCache)
    (waitingQueue : List Req) (deprioritized : Finset ReqId) :
    (queueDepthReordered missing o treeCache waitingQueue deprioritized).Perm waitingQueue := by
  unfold queueDepthReordered
  simp only
  split
  · exact List.Perm.refl _
  · exact PeekEngine.queueDepthReorder_perm o treeCache waitingQueue deprioritized

theorem sent_preSchedule (o : Scoring) (queueAware : Bool) (s : PeekCache)
    (waitingQueue : List Req) : ((preSchedule o queueAware s waitingQueue).2.2.map Req.sent).Perm
      (waitingQueue.map Req.sent) := by
  unfold preSchedule
  split
  · exact List.Perm.refl _
  · cases queueAware with
    | true => exact sent_groups false _ prefixKey waitingQueue (o.sortGroups_perm _ _)
    | false => exact sent_groups false _ prefixKey waitingQueue (o.sortGroups_perm _ _)

theorem preScheduled_perm (missing : Missing) (o : Scoring) (queueAware : Bool) (s : PeekCache)
    (waitingQueue : List Req) : (preScheduled missing o queueAware s waitingQueue).Perm
      (waitingQueue.map Req.sent) := by
  unfold preScheduled
  split
  · exact List.Perm.refl _
  · exact sent_preSchedule o queueAware s waitingQueue

theorem postMatchReordered_perm (missing : Missing) (waitingQueue : List Req) :
    (postMatchReordered missing waitingQueue).Perm waitingQueue := by
  unfold postMatchReordered
  split
  · exact List.Perm.refl _
  · exact sglangPostMatchReorder_perm waitingQueue

/--
**No reordering loses a request, or repeats one.**  Group scheduling for both servers, the cycle
of the engine for vLLM, the reordering by queue depth with any requests set aside,
`sglang_pre_schedule` and the reordering after a match: whatever is queued, whatever is cached,
whatever the clock and the scores say and whoever has no token ids.
-/
theorem reorderings_perm :
    (∀ waitingQueue treeCache reorderThreshold,
      (sglangGroupSchedule waitingQueue treeCache reorderThreshold).Perm waitingQueue) ∧
    (∀ numBlocks newReqs (blockPool : QueuePool numBlocks) groupIds reorderThreshold,
      (vllmGroupSchedule newReqs blockPool groupIds reorderThreshold).Perm newReqs) ∧
    (∀ (F : Type) (f : PyFloat F) numBlocks (e : VllmPeekEngine F) (pool : QueuePool numBlocks)
      now now' waiting, (e.run f pool now now' waiting).2.2.Perm waiting) ∧
    (∀ missing o treeCache waitingQueue deprioritized,
      (queueDepthReordered missing o treeCache waitingQueue deprioritized).Perm waitingQueue) ∧
    (∀ missing o queueAware s waitingQueue,
      (preScheduled missing o queueAware s waitingQueue).Perm (waitingQueue.map Req.sent)) ∧
    ∀ missing waitingQueue, (postMatchReordered missing waitingQueue).Perm waitingQueue :=
  ⟨sglangGroupSchedule_perm, fun _ => vllmGroupSchedule_perm,
    fun _ f _ => VllmPeekEngine.run_perm f, queueDepthReordered_perm, preScheduled_perm,
    postMatchReordered_perm⟩

end Peek

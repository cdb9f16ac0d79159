/-
What protection leaves on the nodes of the cache.

A cycle takes back the protection of the cycle before it by clearing the chains of the nodes
it recorded, and protects other nodes.  In between the cache is used: nodes are split, hung
and deleted.  Through all of that the count of a node stays the number of recorded nodes
whose chain passes it (`ProtectedBy`), recorded nodes that have been deleted included, so
clearing their chains clears the whole tree.
-/
import Peek.Offline.GroupMatch
import Peek.Sglang.Counting

namespace Peek

open RadixCache SchedulePolicy

namespace RadixCache

variable {c c' : RadixCache} {live live' : Set NodeId} {entries nodes : List NodeId}

/-! ### What the cache's own calls keep -/

/-- The chains and the queue references: what every call keeps that does not count them. -/
structure KeepsQueue (c : RadixCache) (live : Set NodeId) (c' : RadixCache) (live' : Set NodeId) :
    Prop extends Later c c' where
  chained : Chained c → Chained c'
  counted : Chained c → ∀ entries, Counted .queue c live entries → Counted .queue c' live' entries
  root : (c'.node rootNode).refs .queue = (c.node rootNode).refs .queue

theorem Keeps.keepsQueue (h : Keeps c live c' live') : KeepsQueue c live c' live' where
  toLater := h.toLater
  chained := h.chained
  counted hc entries hcount := h.counted hc .queue entries hcount
  root := h.rootRefs .queue

theorem LockOnly.keepsQueue (h : LockOnly c c') (hl : Later c c') : KeepsQueue c live c' live where
  toLater := hl
  chained := h.chained
  counted _ _ hcount := h.counted hcount
  root := h.queue rootNode

theorem KeepsQueue.trans {c1 c2 c3 : RadixCache} {l1 l2 l3 : Set NodeId}
    (h : KeepsQueue c1 l1 c2 l2) (h' : KeepsQueue c2 l2 c3 l3) : KeepsQueue c1 l1 c3 l3 where
  toLater := h.toLater.trans h'.toLater
  chained hc := h'.chained (h.chained hc)
  counted hc entries hcount := h'.counted (h.chained hc) entries (h.counted hc entries hcount)
  root := h'.root.trans h.root

/-- Between `c` and `c'` nothing was protected and no protection taken back. -/
def KeepsTree (c c' : RadixCache) : Prop :=
  ∀ live rp pv, WF c live rp pv →
    ∃ live' rp' pv', WF c' live' rp' pv' ∧ KeepsQueue c live c' live'

theorem KeepsTree.refl (c : RadixCache) : KeepsTree c c :=
  fun live rp pv h => ⟨live, rp, pv, h, (Keeps.refl c live).keepsQueue⟩

theorem KeepsTree.trans {c1 c2 c3 : RadixCache} (h : KeepsTree c1 c2) (h' : KeepsTree c2 c3) :
    KeepsTree c1 c3 := by
  intro live rp pv hwf
  obtain ⟨live2, rp2, pv2, hwf2, hkeep⟩ := h live rp pv hwf
  obtain ⟨live3, rp3, pv3, hwf3, hkeep'⟩ := h' live2 rp2 pv2 hwf2
  exact ⟨live3, rp3, pv3, hwf3, hkeep.trans hkeep'⟩

theorem keepsTree_matchPrefixWith (updateLru : Bool) (c : RadixCache) (key : RadixKey) :
    KeepsTree c (c.matchPrefixWith updateLru key).2 := by
  intro live rp pv h
  obtain ⟨live', rp', pv', hwf, hmove, -⟩ := matchPrefixWith_moves h updateLru key
  exact ⟨live', rp', pv', hwf, hmove.keeps.keepsQueue⟩

theorem Step.keepsTree (h : Step c c') : KeepsTree c c' := by
  intro live rp pv hwf
  cases h with
  | insert params =>
      obtain ⟨live', rp', pv', hwf', hmove⟩ := insert_moves hwf params
      exact ⟨live', rp', pv', hwf', hmove.keeps.keepsQueue⟩
  | matchPrefix key => exact keepsTree_matchPrefixWith true c key live rp pv hwf
  | matchPrefixReadonly key => exact keepsTree_matchPrefixWith false c key live rp pv hwf
  | evict e numTokens =>
      obtain ⟨live', hwf', hmove⟩ := evict_moves hwf e numTokens
      exact ⟨live', rp, pv, hwf', hmove.keeps.keepsQueue⟩
  | incLockRef n hn =>
      exact ⟨live, rp, pv, incLockRef_wf hwf (hwf.inTree_iff.mp hn),
        (lockOnly_incLockRef c n).keepsQueue (later_incLockRef c n)⟩
  | decLockRef n hn =>
      exact ⟨live, rp, pv, decLockRef_wf hwf (hwf.inTree_iff.mp hn),
        (lockOnly_decLockRef c n).keepsQueue (later_decLockRef c n)⟩

/-- A loop whose turns protect nothing protects nothing. -/
theorem keepsTree_forEach {σ α : Type} (cache : σ → RadixCache) (f : σ → α → σ × α)
    (hf : ∀ s a, KeepsTree (cache s) (cache (f s a).1)) (l : List α) (s : σ) :
    KeepsTree (cache s) (cache (forEach f s l).1) :=
  forEach_rel (R := fun s s' => KeepsTree (cache s) (cache s')) (fun s => KeepsTree.refl (cache s))
    KeepsTree.trans hf l s

/-! ### Protection by some nodes -/

/-- The queue references are those of the climbs from `entries`. -/
def ProtectedBy (c : RadixCache) (entries : List NodeId) : Prop :=
  ∃ live rp pv, WF c live rp pv ∧ Chained c ∧ Counted .queue c live entries ∧
    (c.node rootNode).refs .queue = 0

theorem KeepsTree.protectedBy (hk : KeepsTree c c') (h : ProtectedBy c entries) :
    ProtectedBy c' entries := by
  obtain ⟨live, rp, pv, hwf, hc, hcount, hroot⟩ := h
  obtain ⟨live', rp', pv', hwf', hkeep⟩ := hk live rp pv hwf
  exact ⟨live', rp', pv', hwf', hkeep.chained hc, hkeep.counted hc entries hcount,
    hkeep.root.trans hroot⟩

theorem ProtectedBy.later (hk : KeepsTree c c') (h : ProtectedBy c entries) : Later c c' := by
  obtain ⟨live, rp, pv, hwf, -⟩ := h
  obtain ⟨_, _, _, _, hkeep⟩ := hk live rp pv hwf
  exact hkeep.toLater

/-- **Each node of the tree counts the protected nodes whose chain passes it.** -/
theorem ProtectedBy.queueRefCount_eq (h : ProtectedBy c entries) {n : NodeId} (hn : c.InTree n) :
    (c.node n).queueRefCount = c.passing entries n := by
  obtain ⟨live, rp, pv, hwf, -, hcount, hroot⟩ := h
  refine Int.ofNat_inj.mp ?_
  show (c.node n).refs .queue = ((c.passing entries n : Nat) : Int)
  by_cases hr : n = rootNode
  · rw [hr, hroot, passing_root]
    rfl
  · exact hcount.count n (hwf.inTree_iff.mp hn) hr

/-- Nothing passes the root, so no call writes it. -/
theorem refs_climb_root {g : Int → Int} {f : NodeId → RadixCache → RadixCache}
    (ht : Turn .queue g f) (hc : Chained c) {n : NodeId} (hn : n < c.nodes.size) :
    ((climb f c.nodes.size n c).node rootNode).refs .queue = (c.node rootNode).refs .queue := by
  rw [ht.refs_climb hc hn, if_neg]
  intro hmem
  exact absurd rfl (ParentChain.passes_of_mem_climbed hmem).ne_root

theorem ProtectedBy.queueRefCount_eq_zero (h : ProtectedBy c []) (hs : SameTree c' c) {n : NodeId}
    (hn : c'.InTree n) : (c.node n).queueRefCount = 0 := by
  refine h.queueRefCount_eq ?_
  unfold InTree
  rw [hs.heap_eq]
  exact hn

theorem ProtectedBy.incQueueRef (h : ProtectedBy c entries) {n : NodeId}
    (hn : n < c.nodes.size) : ProtectedBy (c.incQueueRef n) (n :: entries) := by
  obtain ⟨live, rp, pv, hwf, hc, hcount, hroot⟩ := h
  have hq := queueOnly_incQueueRef c n
  exact ⟨live, rp, pv, hwf.sameTree hq.toSameTree, hq.chained hc,
    counted_incQueueRef hc hcount hn, (refs_climb_root turn_inc hc hn).trans hroot⟩

/-- The order of the protected nodes does not matter. -/
theorem ProtectedBy.perm (h : ProtectedBy c entries) (hp : entries.Perm nodes) :
    ProtectedBy c nodes := by
  obtain ⟨live, rp, pv, hwf, hc, hcount, hroot⟩ := h
  refine ⟨live, rp, pv, hwf, hc, ⟨fun e he => hcount.bound e (hp.mem_iff.mpr he), ?_⟩, hroot⟩
  intro n hn hr
  rw [← passing_perm c hp]
  exact hcount.count n hn hr

theorem ProtectedBy.foldl_incQueueRef (h : ProtectedBy c entries)
    (hn : ∀ n ∈ nodes, n < c.nodes.size) :
    ProtectedBy (nodes.foldl RadixCache.incQueueRef c) (nodes ++ entries) := by
  induction nodes generalizing c entries with
  | nil => exact h
  | cons n nodes ih =>
      have hsize := (queueOnly_incQueueRef c n).size
      rw [List.foldl_cons]
      refine (ih (h.incQueueRef (hn n List.mem_cons_self)) fun m hm => ?_).perm List.perm_middle
      rw [hsize]
      exact hn m (List.mem_cons_of_mem _ hm)

/-- **Clearing the chains of the protected nodes, and of any others, clears the tree.** -/
theorem ProtectedBy.clearChains (h : ProtectedBy c entries) {prev : List NodeId}
    (hsub : entries ⊆ prev) (hprev : ∀ e ∈ prev, e < c.nodes.size) :
    ProtectedBy (prev.foldl clearQueueRefs c) [] := by
  obtain ⟨live, rp, pv, hwf, hc, hcount, hroot⟩ := h
  have hq := queueOnly_foldl queueOnly_clearQueueRefs prev c
  refine ⟨live, rp, pv, hwf.sameTree hq.toSameTree, hq.chained hc, ⟨?_, ?_⟩, ?_⟩
  · intro e he
    simp at he
  · intro n hn hr
    exact clearChains_zero hc hcount hsub hprev hn hr
  · rw [refs_clearChains hc hprev]
    split
    · rfl
    · exact hroot

theorem ProtectedBy.resetAll (h : ProtectedBy c entries) : ProtectedBy c.resetAllQueueRefs [] := by
  obtain ⟨live, rp, pv, hwf, hc, -, -⟩ := h
  have hq := queueOnly_resetAllQueueRefs c
  exact ⟨live, rp, pv, hwf.sameTree hq.toSameTree, hq.chained hc, counted_resetAllQueueRefs hwf,
    resetAllQueueRefs_zero hwf hwf.labelled.rootLive⟩

end RadixCache

namespace PeekCache

/-- What is protected is on record, and so are objects of the cache only. -/
structure OnRecord (s : PeekCache) (entries : List NodeId) : Prop where
  counts : s.treeCache.ProtectedBy entries
  recorded : entries ⊆ s.prevProtected.getD []
  bound : ∀ e ∈ s.prevProtected.getD [], e < s.treeCache.nodes.size

variable {s : PeekCache} {entries nodes : List NodeId}

/-- **The targeted reset takes all protection back**, and so does the reset of the whole tree. -/
theorem OnRecord.resetProtection (h : OnRecord s entries) :
    s.resetProtection.treeCache.ProtectedBy [] := by
  unfold PeekCache.resetProtection
  cases hprev : s.prevProtected with
  | none => exact h.counts.resetAll
  | some prev =>
      have hsub := h.recorded
      have hbound := h.bound
      rw [hprev] at hsub hbound
      exact h.counts.clearChains hsub hbound

theorem queueOnly_resetProtection (s : PeekCache) :
    QueueOnly s.treeCache s.resetProtection.treeCache := by
  unfold PeekCache.resetProtection
  cases s.prevProtected with
  | none => exact queueOnly_resetAllQueueRefs s.treeCache
  | some prev => exact queueOnly_foldl queueOnly_clearQueueRefs prev s.treeCache

/-- A cycle that raises has taken the protection back, but left the record. -/
theorem OnRecord.raised (h : OnRecord s entries) : OnRecord s.resetProtection [] where
  counts := h.resetProtection
  recorded := List.nil_subset _
  bound e he := by
    rw [(queueOnly_resetProtection s).size]
    exact h.bound e he

/-- Protecting some nodes of a cache where nothing is protected. -/
theorem onRecord_protect (h : s.treeCache.ProtectedBy [])
    (hn : ∀ n ∈ nodes, n < s.treeCache.nodes.size) : OnRecord (s.protect nodes) nodes := by
  have hcounts := h.foldl_incQueueRef hn
  rw [List.append_nil] at hcounts
  refine ⟨hcounts, List.Subset.refl nodes, fun e he => ?_⟩
  unfold PeekCache.protect
  rw [(queueOnly_foldl queueOnly_incQueueRef nodes s.treeCache).size]
  exact hn e he

end PeekCache

/-! ### The nodes a cycle protects -/

/-- A request that has something cached stands in its group. -/
theorem rep_mem {members : List Req} (h : (rep members).prefixIndices ≠ []) : rep members ∈ members := by
  cases members with
  | nil => exact absurd rfl h
  | cons r members => exact List.mem_cons_self

theorem protectedNodes_bound {o : Scoring} {c : RadixCache} {scored : List (List Req)}
    (hr : ∀ r ∈ scored.flatten, r.Refers c) : ∀ n ∈ protectedNodes o c scored, n < c.nodes.size := by
  intro n hn
  obtain ⟨members, hmem, hnode⟩ := List.mem_filterMap.mp hn
  obtain ⟨hcached, hnode⟩ := Option.ite_none_right_eq_some.mp hnode
  exact hr _ (List.mem_flatten.mpr ⟨members, List.mem_of_mem_take hmem, rep_mem hcached⟩) n hnode

namespace PeekEngine

variable {o : Scoring} {cfg : EngineConfig} {s : PeekCache} {queue : List Req}
  {entries : List NodeId}

theorem queueDepthReorder_bound {c : RadixCache} (hr : ∀ r ∈ queue, r.Refers c)
    (depr : Finset ReqId) : ∀ n ∈ (queueDepthReorder o c queue depr).2, n < c.nodes.size := by
  intro n hn
  unfold queueDepthReorder at hn
  simp only at hn
  obtain ⟨g, hg, hnode⟩ := List.mem_filterMap.mp hn
  obtain ⟨hcond, hnode⟩ := Option.ite_none_right_eq_some.mp hnode
  have hnormal := List.mem_filter.mp ((List.mem_insertionSort _).mp hg)
  obtain ⟨g', hg', rfl⟩ := List.mem_map.mp hnormal.1
  have hmem := List.mem_filter.mp (rep_mem hcond.2)
  refine hr _ ?_ n hnode
  exact (flatten_groupBy_perm prefixKey queue).mem_iff.mp
    (List.mem_flatten.mpr ⟨g'.2, List.mem_map_of_mem hg', hmem.1⟩)

/-- **A tagged cycle that returns has recorded what it protected.** -/
theorem runTagged_onRecord (h : s.OnRecord entries) (hs : Sound s.treeCache)
    (hparse : TagsParse queue) :
    ∃ nodes, (runTagged o s queue).2.1.prevProtected = some nodes ∧
      (runTagged o s queue).2.1.OnRecord nodes := by
  unfold runTagged
  rw [if_neg (not_not_intro hparse)]
  have hsound := s.onlySplits_resetProtection.sound hs
  have hmatch : KeepsTree s.resetProtection.treeCache
      (forEach (matchGroup true) s.resetProtection.treeCache (tagGroups queue)).1 :=
    keepsTree_forEach (fun c => c) (matchGroup true)
      (fun c g => keepsTree_matchPrefixWith true c (rep g.2).key) _ _
  have hright := matchGroups_right true hsound (tagGroups queue)
    (o.sortGroups_perm (forEach (matchGroup true) s.resetProtection.treeCache (tagGroups queue)).1 _)
  exact ⟨_, rfl, PeekCache.onRecord_protect (hmatch.protectedBy h.resetProtection)
    (protectedNodes_bound hright.refers)⟩

/-- **A full cycle has recorded what it protected.** -/
theorem runFull_onRecord (h : s.OnRecord entries) (hs : Sound s.treeCache)
    (hr : ∀ r ∈ queue, r.Refers s.treeCache) :
    ∃ nodes, (runFull o cfg s queue).1.prevProtected = some nodes ∧
      (runFull o cfg s queue).1.OnRecord nodes := by
  have hreset := s.onlySplits_resetProtection
  have hr1 : ∀ r ∈ queue, r.Refers s.resetProtection.treeCache := fun r hq =>
    (hr r hq).later (hreset.later hs)
  have hbut := prefixMatchTurn_matchesBut cfg.checkThreshold cfg.deprioritizeThreshold
  have hmatch := keepsTree_forEach PrefixMatches.treeCache
    (prefixMatchTurn cfg.checkThreshold cfg.deprioritizeThreshold) (fun p r => by
      by_cases hskip : r.peekMatched = true
      · rw [(hbut.skipped p r hskip).1]
        exact KeepsTree.refl p.treeCache
      · rw [(hbut.matched p r hskip).1]
        exact keepsTree_matchPrefixWith true p.treeCache r.key) queue
    ⟨s.resetProtection.treeCache, createSimulated, ∅⟩
  obtain ⟨-, href, -⟩ := forEach_current_iff hbut queue
    ⟨s.resetProtection.treeCache, createSimulated, ∅⟩ (hreset.sound hs) hr1
  unfold runFull computePrefixMatches
  refine ⟨_, rfl, PeekCache.onRecord_protect (hmatch.protectedBy h.resetProtection) ?_⟩
  simp only
  split
  · exact queueDepthReorder_bound href _
  · intro n hn
    simp at hn

end PeekEngine

/-! ### Every run -/

/-- The scheduler, and whether a cycle has returned and none has raised since. -/
structure EngineRun where
  scheduler : OfflineScheduler
  returned : Bool

namespace EngineRun

def new (pageSize : Nat) (disable : Bool) : EngineRun :=
  { scheduler := OfflineScheduler.new pageSize disable, returned := false }

/-- Calls on the cache, changes of the queue, and cycles of the engine. -/
inductive Step : EngineRun → EngineRun → Prop
  | cache {s : EngineRun} {treeCache : RadixCache}
      (h : RadixCache.Step s.scheduler.cache.treeCache treeCache) :
      Step s { s with scheduler :=
        { s.scheduler with cache := { s.scheduler.cache with treeCache := treeCache } } }
  | queue {s : EngineRun} (waitingQueue : List Req)
      (h : ∀ r ∈ waitingQueue, r.Refers s.scheduler.cache.treeCache) :
      Step s { s with scheduler := { s.scheduler with waitingQueue := waitingQueue } }
  | cycle (s : EngineRun) (o : Scoring) (cfg : EngineConfig) :
      Step s { scheduler := (s.scheduler.cycle o cfg).2
               returned := (s.scheduler.cycle o cfg).1.isSome }

/-- What is protected is on record; after a cycle that returned, it is what is on record. -/
structure Inv (s : EngineRun) : Prop where
  scheduler : s.scheduler.Inv
  record : ∃ entries, s.scheduler.cache.OnRecord entries ∧
    (s.returned = true → s.scheduler.cache.prevProtected = some entries)

variable {s s' : EngineRun}

theorem new_inv {pageSize : Nat} (hps : 0 < pageSize) (disable : Bool) :
    Inv (new pageSize disable) := by
  refine ⟨OfflineScheduler.run_inv hps Relation.ReflTransGen.refl, [], ⟨?_, ?_, ?_⟩, fun h => ?_⟩
  · refine ⟨_, _, _, new_wf hps disable, ⟨Nat.one_pos, fun n hn hr => ?_, fun n hn => ?_⟩,
      ⟨fun e he => by simp at he, fun n hn hr => absurd hn hr⟩, rfl⟩
    · exact absurd (Nat.lt_one_iff.mp hn) hr
    · rw [Nat.lt_one_iff.mp hn]
      exact ⟨0, ParentChain.Up.root⟩
  · exact List.Subset.refl []
  · intro e he
    simp [new, OfflineScheduler.new] at he
  · simp [new] at h

theorem Inv.step (h : Inv s) (hs : Step s s') : Inv s' := by
  obtain ⟨hinv, entries, hrec, hret⟩ := h
  cases hs with
  | cache hc =>
      have hkeep := hc.keepsTree
      have hlater := hrec.counts.later hkeep
      refine ⟨hinv.step (OfflineScheduler.Step.cache hc), entries, ⟨?_, hrec.recorded, ?_⟩, hret⟩
      · exact hkeep.protectedBy hrec.counts
      · exact fun e he => Nat.lt_of_lt_of_le (hrec.bound e he) hlater.size
  | queue waitingQueue hq =>
      exact ⟨hinv.step (OfflineScheduler.Step.queue waitingQueue hq), entries, hrec, hret⟩
  | cycle o cfg =>
      refine ⟨hinv.step (OfflineScheduler.Step.cycle _ o cfg), ?_⟩
      unfold OfflineScheduler.cycle PeekEngine.run
      by_cases htags : PeekEngine.hasPeekTags s.scheduler.waitingQueue = true
      · simp only [if_pos htags]
        by_cases hparse : PeekEngine.TagsParse s.scheduler.waitingQueue
        · obtain ⟨nodes, hprev, hnew⟩ :=
            @PeekEngine.runTagged_onRecord o s.scheduler.cache _ entries hrec hinv.sound hparse
          exact ⟨nodes, hnew, fun _ => hprev⟩
        · -- the cycle raises after the reset
          unfold PeekEngine.runTagged
          rw [if_pos hparse]
          exact ⟨[], hrec.raised, fun hret => by simp at hret⟩
      · simp only [if_neg htags]
        obtain ⟨nodes, hprev, hnew⟩ :=
          @PeekEngine.runFull_onRecord o cfg s.scheduler.cache _ entries hrec hinv.sound hinv.refers
        exact ⟨nodes, hnew, fun _ => hprev⟩

theorem run_inv {pageSize : Nat} (hps : 0 < pageSize) {disable : Bool}
    (hrun : Relation.ReflTransGen Step (new pageSize disable) s) : Inv s := by
  induction hrun with
  | refl => exact new_inv hps disable
  | tail _ hstep ih => exact ih.step hstep

/-- After a cycle that protects a prompt, a match splits the node that holds it. -/
def splitAfterCycle : EngineRun :=
  let s := ((OfflineScheduler.twoQueued none).cycle OfflineScheduler.asGiven ⟨32, 32⟩).2
  { scheduler :=
      { s with cache :=
        { s.cache with treeCache := (s.cache.treeCache.matchPrefix ⟨[1, 2], none⟩).2 } }
    returned := true }

theorem splitAfterCycle_run : Relation.ReflTransGen Step (new 1 false) splitAfterCycle := by
  have h1 : Step (new 1 false) ⟨⟨(OfflineScheduler.twoQueued none).cache, []⟩, false⟩ :=
    Step.cache (RadixCache.Step.insert _ _)
  have h2 : Step ⟨⟨(OfflineScheduler.twoQueued none).cache, []⟩, false⟩
      ⟨OfflineScheduler.twoQueued none, false⟩ := by
    refine Step.queue _ fun r hr n hn => ?_
    rcases List.mem_cons.mp hr with rfl | hr
    · simp at hn
    · rw [List.mem_singleton.mp hr] at hn
      simp at hn
  have h3 := Step.cycle ⟨OfflineScheduler.twoQueued none, false⟩ OfflineScheduler.asGiven ⟨32, 32⟩
  exact (((Relation.ReflTransGen.refl.tail h1).tail h2).tail h3).tail
    (Step.cache (RadixCache.Step.matchPrefix _ ⟨[1, 2], none⟩))

end EngineRun

end Peek

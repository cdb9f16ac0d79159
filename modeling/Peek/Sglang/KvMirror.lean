/-
What an observer has seen of a cache, over whole runs.

A router that takes the events now and then knows the blocks of the tree, whatever calls are made
in between: each event fits what it has seen, and in the end it has just the blocks of the tree,
each as often as the tree has it.  Two namespaces may hold the same tokens; then the tree has the
same block twice, and an observer that kept a set would lose it with the first of them that goes.
-/
import Peek.Sglang.KvObserver

namespace Peek

open Radix RadixCache

namespace EventCache

variable {H : PageHash} {s : EventCache H} {c' : RadixCache} {rp : NodeId → List ChildKey}
  {pv : NodeId → List Index}

/-! ### Whole calls -/

/-- What a match does to the cache is what it does where nobody listens. -/
theorem cache_matchLoop (updateLru : Bool) (t : Nat) :
    ∀ (fuel : Nat) (s : EventCache H) (n : NodeId) (key : RadixKey) (value : List Index),
      (matchLoop updateLru t fuel s n key).cache =
        (RadixCache.matchLoop updateLru t fuel s.cache n key value).1 := by
  intro fuel
  induction fuel with
  | zero => intro s n key value; rfl
  | succ fuel ih =>
      intro s n key value
      unfold matchLoop RadixCache.matchLoop
      by_cases hpos : key.length > 0
      · rw [if_pos hpos, if_pos hpos]
        cases (s.cache.node n).children.lookup (getChildKey key s.cache.pageSize) with
        | none => rfl
        | some ch =>
            cases updateLru with
            | true =>
                simp only [onCache, if_true]
                split
                · rfl
                · exact ih _ ch _ _
            | false =>
                simp only [onCache, Bool.false_eq_true, if_false]
                split
                · rfl
                · exact ih _ ch _ _
      · rw [if_neg hpos, if_neg hpos]

theorem cache_matchPrefixWith (updateLru : Bool) (s : EventCache H) (key : RadixKey) :
    (s.matchPrefixWith updateLru key).cache = (s.cache.matchPrefixWith updateLru key).2 := by
  unfold matchPrefixWith RadixCache.matchPrefixWith
  by_cases hnone : s.cache.disable = true ∨ key.length = 0
  · rw [if_pos hnone, if_pos hnone]
  · rw [if_neg hnone, if_neg hnone]
    by_cases hkey : (s.cache.pageAlign key).length = 0
    · simp only [if_pos hkey]
    · simp only [if_neg hkey]
      exact cache_matchLoop updateLru s.cache.clock _ _ rootNode _ []

/-- **A match makes no event**, and parts the hashes of what it cuts. -/
theorem matchLoop_follows (updateLru : Bool) (t : Nat) :
    ∀ (fuel : Nat) (s : EventCache H) (live : Set NodeId) (rp : NodeId → List ChildKey)
      (pv : NodeId → List Index) (n : NodeId) (key : RadixKey), WF s.cache live rp pv → n ∈ live →
      Follows s (matchLoop updateLru t fuel s n key) := by
  intro fuel
  induction fuel with
  | zero => intro s live rp pv n key _ _; exact Follows.refl s
  | succ fuel ih =>
      intro s live rp pv n key h hn
      unfold matchLoop
      by_cases hpos : key.length > 0
      · rw [if_pos hpos]
        cases hkid : (s.cache.node n).children.lookup (getChildKey key s.cache.pageSize) with
        | none => exact Follows.refl s
        | some ch =>
            have hsame := sameTree_ite updateLru s.cache ch (bookkeeping_accessTime t)
            have htouch := touch_ite_follows updateLru s ch (bookkeeping_accessTime t)
            simp only
            set s1 := s.onCache fun c => if updateLru = true then
              c.nodeMut ch fun m => { m with lastAccessTime := t } else c with hs1
            have h1 : WF s1.cache live rp pv := h.sameTree hsame
            have hkid1 : s1.cache.heap.kid n (getChildKey key s1.cache.pageSize) = some ch := by
              rw [show s1.cache.heap = s.cache.heap from hsame.heap_eq,
                show s1.cache.pageSize = s.cache.pageSize from hsame.pageSize]
              exact hkid
            by_cases hcut : keyMatch s1.cache.pageSize (s1.cache.node ch).key key <
                (s1.cache.node ch).key.length
            · rw [if_pos hcut]
              have hsplit := cut_kid_follows h1 hn hpos hkid1 hcut
              exact (htouch.trans hsplit).trans
                (touch_ite_follows updateLru _ _ bookkeeping_hitCount)
            · rw [if_neg hcut]
              have hhit := touch_ite_follows updateLru s1 ch bookkeeping_hitCount
              have hsame2 := sameTree_ite updateLru s1.cache ch bookkeeping_hitCount
              exact (htouch.trans hhit).trans (ih _ live rp pv ch _ (h1.sameTree hsame2)
                (h1.labelled.kidLive hn hkid1))
      · rw [if_neg hpos]
        exact Follows.refl s

theorem matchPrefixWith_follows (updateLru : Bool) (s : EventCache H) (key : RadixKey) :
    Follows s (s.matchPrefixWith updateLru key) := by
  intro ht
  obtain ⟨live, rp, pv, h, hh⟩ := ht
  refine (?_ : Follows s _) ⟨live, rp, pv, h, hh⟩
  unfold matchPrefixWith
  split
  · exact Follows.refl s
  · simp only
    split
    · exact Follows.refl s
    · have hsame := (sameTree_touchRoot updateLru s.cache).1
      exact (sameTree_follows hsame).trans (matchLoop_follows updateLru s.cache.clock _ _ live rp
        pv rootNode _ (h.sameTree hsame) h.labelled.rootLive)

theorem cache_insertLoop (priority : Int) (t : Nat) :
    ∀ (fuel : Nat) (s : EventCache H) (w : InsertWalk),
      ((insertLoop priority t fuel s w).1.cache, (insertLoop priority t fuel s w).2) =
        RadixCache.insertLoop priority t fuel s.cache w := by
  intro fuel
  induction fuel with
  | zero => intro s w; rfl
  | succ fuel ih =>
      intro s w
      unfold insertLoop RadixCache.insertLoop
      by_cases hpos : w.key.length > 0
      · rw [if_pos hpos, if_pos hpos]
        cases (s.cache.node w.node).children.lookup (getChildKey w.key s.cache.pageSize) with
        | none => rfl
        | some ch =>
            simp only
            set s1 := s.onCache fun c => c.nodeMut ch fun m => { m with lastAccessTime := t }
              with hs1
            set c1 := s.cache.nodeMut ch fun m => { m with lastAccessTime := t } with hc1
            have hcache : s1.cache = c1 := rfl
            rw [hcache]
            by_cases hcut : keyMatch c1.pageSize (c1.node ch).key w.key < (c1.node ch).key.length
            · rw [if_pos hcut, if_pos hcut]
              exact ih _ _
            · rw [if_neg hcut, if_neg hcut]
              exact ih _ _
      · rw [if_neg hpos, if_neg hpos]

theorem insertLoop_follows (priority : Int) (t : Nat) :
    ∀ (fuel : Nat) (s : EventCache H) (live : Set NodeId) (rp : NodeId → List ChildKey)
      (pv : NodeId → List Index) (w : InsertWalk), WF s.cache live rp pv → w.node ∈ live →
      Follows s (insertLoop priority t fuel s w).1 := by
  intro fuel
  induction fuel with
  | zero => intro s live rp pv w _ _; exact Follows.refl s
  | succ fuel ih =>
      intro s live rp pv w h hw
      unfold insertLoop
      by_cases hpos : w.key.length > 0
      · rw [if_pos hpos]
        cases hkid : (s.cache.node w.node).children.lookup
            (getChildKey w.key s.cache.pageSize) with
        | none => exact Follows.refl s
        | some ch =>
            have hsame := sameTree_nodeMut s.cache ch (bookkeeping_accessTime t)
            have htouch := touch_follows s ch (bookkeeping_accessTime t)
            simp only
            set s1 := s.onCache fun c => c.nodeMut ch fun m => { m with lastAccessTime := t }
              with hs1
            have h1 : WF s1.cache live rp pv := h.sameTree hsame
            have hkid1 : s1.cache.heap.kid w.node (getChildKey w.key s1.cache.pageSize) =
                some ch := by
              rw [show s1.cache.heap = s.cache.heap from hsame.heap_eq,
                show s1.cache.pageSize = s.cache.pageSize from hsame.pageSize]
              exact hkid
            by_cases hcut : keyMatch s1.cache.pageSize (s1.cache.node ch).key w.key <
                (s1.cache.node ch).key.length
            · rw [if_pos hcut]
              have hsplit := cut_kid_follows h1 hw hpos hkid1 hcut
              obtain ⟨-, live', rp', pv', hgrow, hu⟩ := cut_kid h1 hw hpos hkid1 hcut
              have hsame2 := sameTree_nodeMut
                (s1.cache.splitNode ch (keyMatch s1.cache.pageSize (s1.cache.node ch).key
                  w.key)).1
                (s1.cache.splitNode ch (keyMatch s1.cache.pageSize (s1.cache.node ch).key
                  w.key)).2
                (bookkeeping_priority priority)
              exact ((htouch.trans hsplit).trans (touch_follows _ _
                (bookkeeping_priority priority))).trans
                (ih _ live' rp' pv' _ (hgrow.wf.sameTree hsame2) hu)
            · rw [if_neg hcut]
              have hsame2 := sameTree_nodeMut s1.cache ch (bookkeeping_priority priority)
              exact (htouch.trans (touch_follows s1 ch (bookkeeping_priority priority))).trans
                (ih _ live rp pv _ (h1.sameTree hsame2) (h1.labelled.kidLive hw hkid1))
      · rw [if_neg hpos]
        exact Follows.refl s

/-- **An insertion does what it does where nobody listens.** -/
theorem cache_insert (s : EventCache H) (params : InsertParams) :
    ((s.insert params).1, (s.insert params).2.cache) = s.cache.insert params := by
  unfold insert RadixCache.insert
  by_cases hd : s.cache.disable = true
  · rw [if_pos hd, if_pos hd]
  · rw [if_neg hd, if_neg hd]
    unfold insertHelper RadixCache.insertHelper
    simp only
    by_cases hempty : params.key.length = 0
    · rw [if_pos hempty, if_pos hempty]
      rfl
    · rw [if_neg hempty, if_neg hempty]
      have hcache := cache_insertLoop params.priority s.cache.clock (params.key.length + 1)
        (s.onCache fun c => (c.tick 1).nodeMut rootNode fun n => { n with
          lastAccessTime := s.cache.clock, priority := max n.priority params.priority })
        ⟨rootNode, params.key, params.indices, 0⟩
      unfold onCache at hcache ⊢
      simp only at hcache ⊢
      unfold InsertParams.indices at hcache
      rw [← hcache]
      simp only
      split
      · exact Prod.ext rfl (cache_recordEvent _ _).1
      · rfl

/-- **An insertion tells of its leaf.** -/
theorem insert_follows (s : EventCache H) (params : InsertParams) :
    Follows s (s.insert params).2 := by
  intro ht
  obtain ⟨live, rp, pv, h, hh⟩ := ht
  refine (?_ : Follows s _) ⟨live, rp, pv, h, hh⟩
  unfold insert
  by_cases hd : s.cache.disable = true
  · rw [if_pos hd]
    exact Follows.refl s
  · rw [if_neg hd]
    unfold insertHelper
    simp only
    set s1 : EventCache H := s.onCache fun c => (c.tick 1).nodeMut rootNode fun n => { n with
      lastAccessTime := s.cache.clock, priority := max n.priority params.priority } with hs1
    have hbook := (bookkeeping_accessTime s.cache.clock).comp (bookkeeping_priority params.priority)
    have hsame : SameTree s.cache s1.cache := (sameTree_tick s.cache 1).trans
      (sameTree_nodeMut (s.cache.tick 1) rootNode hbook)
    have h1 : WF s1.cache live rp pv := h.sameTree hsame
    have hstart : Follows s s1 := sameTree_follows hsame
    by_cases hempty : params.key.length = 0
    · rw [if_pos hempty]
      exact hstart
    · rw [if_neg hempty]
      have hcache := cache_insertLoop params.priority s.cache.clock (params.key.length + 1) s1
        ⟨rootNode, params.key, params.indices, 0⟩
      have hloop := insertLoop_follows params.priority s.cache.clock (params.key.length + 1) s1
        live rp pv ⟨rootNode, params.key, params.indices, 0⟩ h1 h1.labelled.rootLive
      obtain ⟨live', rp', pv', k, hgrow, hwalk, hfree⟩ := insertLoop_root_walked h1 params.key
        params.length_indices params.priority s.cache.clock
      rw [← hcache] at hgrow hwalk hfree
      show Follows s (if _ then _ else _ : Nat × EventCache H).2
      split
      · rename_i hpos
        rw [← hgrow.pageSize] at hwalk hfree
        obtain ⟨rp2, pv2, hwf, -⟩ := addLeaf_wf hgrow.wf hwalk hpos hfree params.priority
        exact (hstart.trans hloop).trans (addLeaf_follows hgrow.wf hwalk.live params.priority hwf)
      · exact hstart.trans hloop

theorem cache_evictLoop (e : EvictionHeap) (numTokens : Nat) :
    ∀ (fuel : Nat) (s : EventCache H) (heap : List (e.Priority × NodeId)) (freed : List Index),
      ((evictLoop e numTokens fuel s heap freed).1,
          (evictLoop e numTokens fuel s heap freed).2.cache) =
        RadixCache.evictLoop e numTokens fuel s.cache heap freed := by
  intro fuel
  induction fuel with
  | zero => intro s heap freed; rfl
  | succ fuel ih =>
      intro s heap freed
      unfold evictLoop RadixCache.evictLoop
      by_cases hlt : freed.length < numTokens
      · rw [if_pos hlt, if_pos hlt]
        cases e.heappop s.cache heap with
        | none => rfl
        | some xr =>
            obtain ⟨⟨pr, x⟩, rest⟩ := xr
            have hcache := (cache_recordEvent (s.onCache fun c => c.deleteLeaf x) x).2
            have hdeleted : (s.onCache fun c => c.deleteLeaf x).cache = s.cache.deleteLeaf x := rfl
            simp only
            rw [ih, hcache, hdeleted]
      · rw [if_neg hlt, if_neg hlt]

/-- **An eviction evicts what it evicts where nobody listens.** -/
theorem cache_evict (s : EventCache H) (e : EvictionHeap) (numTokens : Nat) :
    ((s.evict e numTokens).1, (s.evict e numTokens).2.cache) = s.cache.evict e numTokens := by
  unfold evict RadixCache.evict
  split
  · rfl
  · exact cache_evictLoop e numTokens _ s _ []

theorem evictLoop_follows (e : EvictionHeap) (numTokens : Nat) :
    ∀ (fuel : Nat) (s : EventCache H) (live : Set NodeId) (heap : List (e.Priority × NodeId))
      (freed : List Index), WF s.cache live rp pv → HeapOk s.cache live heap →
      Follows s (evictLoop e numTokens fuel s heap freed).2 := by
  intro fuel
  induction fuel with
  | zero => intro s live heap freed _ _; exact Follows.refl s
  | succ fuel ih =>
      intro s live heap freed h hheap
      unfold evictLoop
      by_cases hlt : freed.length < numTokens
      · rw [if_pos hlt]
        cases hpop : e.heappop s.cache heap with
        | none => exact Follows.refl s
        | some xr =>
            obtain ⟨x, rest⟩ := xr
            have hheap : HeapOk s.cache live (x :: rest) := hheap.perm (e.pop_perm _ _ _ _ hpop)
            obtain ⟨hx, hxr, hxk⟩ := hheap.leaf x List.mem_cons_self
            have hcache := (cache_recordEvent (s.onCache fun c => c.deleteLeaf x.2) x.2).2
            refine (deleteLeaf_follows h hx hxr hxk).trans (ih _ ( live \ {x.2}) _ _ ?_ ?_)
            · rw [hcache]
              exact deleteLeaf_wf h hx hxr hxk
            · rw [hcache]
              exact hheap.next h _
      · rw [if_neg hlt]
        exact Follows.refl s

/-- **An eviction tells of every node it takes.** -/
theorem evict_follows (s : EventCache H) (e : EvictionHeap) (numTokens : Nat) :
    Follows s (s.evict e numTokens).2 := by
  intro ht
  obtain ⟨live, rp, pv, h, hh⟩ := ht
  refine (?_ : Follows s _) ⟨live, rp, pv, h, hh⟩
  unfold evict
  split
  · exact Follows.refl s
  · exact evictLoop_follows e numTokens _ s live _ [] h (heapOk_start h _)

/-! ### Locks, references and resets -/

theorem sameShape_follows (hs : SameShape s.cache c')
    (hwf : ∀ live rp pv, WF s.cache live rp pv → WF c' live rp pv) :
    Follows s { s with cache := c' } :=
  withCache_follows hs.nodes hs.pageSize hs.key hs.parent hwf

theorem tracked_reset (hps : 0 < s.cache.pageSize) (hen : s.enableKvCacheEvents = true) :
    Tracked s.reset ∧ s.reset.blocks = 0 ∧
      s.reset.kvEventQueue = s.kvEventQueue ++ [.allBlocksCleared] := by
  have heq : s.reset = { s with
      cache := RadixCache.new s.cache.pageSize s.cache.disable
      hashValue := fun n => if n = rootNode then some [] else none
      kvEventQueue := s.kvEventQueue ++ [.allBlocksCleared] } := by
    unfold reset recordAllClearedEvent
    rw [if_pos hen]
  have hwf := new_wf hps s.cache.disable
  rw [heq]
  refine ⟨⟨_, _, _, hwf, hen, rfl, fun n hn hr => absurd hn hr, fun n hn => ?_⟩, ?_, rfl⟩
  · have hr : n ≠ rootNode := by
      rintro rfl
      exact absurd hn (Nat.not_le_of_lt (hwf.bound rootNode rfl))
    exact if_neg hr
  · unfold blocks CellSum.total
    refine Finset.sum_eq_zero fun n hn => ?_
    have hr : n = rootNode := hwf.mem_tree.mp hn
    show announced (if n = rootNode then some [] else none) = 0
    rw [if_pos hr]
    rfl

theorem reset_follows (s : EventCache H) : Follows s s.reset := by
  intro ht
  obtain ⟨live, rp, pv, h, hh⟩ := ht
  obtain ⟨htracked, hblocks, hqueue⟩ := tracked_reset h.pageSize_pos hh.enabled
  refine ⟨htracked, _, hqueue, by simp [KvEvent.Chained], ?_⟩
  rw [hblocks]
  rfl

end EventCache

/-! ### Runs -/

/-- A cache whose events somebody takes now and then, and counts. -/
structure WatchedCache (H : PageHash) where
  cache : EventCache H
  seen : Option (Multiset Int)

namespace WatchedCache

open EventCache

variable {H : PageHash} {w w' : WatchedCache H}

/-- A new cache that sends events, and somebody who has seen none. -/
def new (H : PageHash) (pageSize : Nat) (disable : Bool) : WatchedCache H :=
  ⟨EventCache.new H pageSize disable true, some 0⟩

/-- A call that does nothing to the tree but what it does to the cache. -/
def onCache (w : WatchedCache H) (f : RadixCache → RadixCache) : WatchedCache H :=
  { w with cache := w.cache.onCache f }

inductive Step : WatchedCache H → WatchedCache H → Prop
  | insert (w : WatchedCache H) (params : InsertParams) :
      Step w { w with cache := (w.cache.insert params).2 }
  | matchPrefix (w : WatchedCache H) (updateLru : Bool) (key : RadixKey) :
      Step w { w with cache := w.cache.matchPrefixWith updateLru key }
  | incLockRef (w : WatchedCache H) (n : NodeId) (hn : w.cache.cache.InTree n) :
      Step w (w.onCache fun c => c.incLockRef n)
  | decLockRef (w : WatchedCache H) (n : NodeId) (hn : w.cache.cache.InTree n) :
      Step w (w.onCache fun c => c.decLockRef n)
  | incQueueRef (w : WatchedCache H) (n : NodeId) : Step w (w.onCache fun c => c.incQueueRef n)
  | resetAllQueueRefs (w : WatchedCache H) : Step w (w.onCache fun c => c.resetAllQueueRefs)
  | evict (w : WatchedCache H) (e : EvictionHeap) (numTokens : Nat) :
      Step w { w with cache := (w.cache.evict e numTokens).2 }
  | reset (w : WatchedCache H) : Step w { w with cache := w.cache.reset }
  | takeEvents (w : WatchedCache H) :
      Step w ⟨w.cache.takeEvents.2, w.seen.bind (replay w.cache.takeEvents.1)⟩

/-- Hashes are right, and what was taken and what is waiting make up the blocks of the tree. -/
structure Inv (w : WatchedCache H) : Prop where
  tracked : Tracked w.cache
  chained : ∀ e ∈ w.cache.kvEventQueue, e.Chained H
  seen : w.seen.bind (replay w.cache.kvEventQueue) = some w.cache.blocks

theorem Inv.follows (h : Inv w) {s : EventCache H} (hf : Follows w.cache s) :
    Inv { w with cache := s } := by
  obtain ⟨ht, hchained, hseen⟩ := h
  obtain ⟨ht', events, hqueue, hchained', hreplay⟩ := hf ht
  refine ⟨ht', ?_, ?_⟩
  · show ∀ e ∈ s.kvEventQueue, e.Chained H
    rw [hqueue]
    exact List.forall_mem_append.mpr ⟨hchained, hchained'⟩
  show w.seen.bind (replay s.kvEventQueue) = some s.blocks
  obtain ⟨blocks, hb, heq⟩ := Option.bind_eq_some_iff.mp hseen
  rw [hb, Option.bind_some, hqueue, replay_append, heq]
  exact hreplay

theorem new_inv {pageSize : Nat} (hps : 0 < pageSize) (disable : Bool) :
    Inv (new H pageSize disable) := by
  obtain ⟨ht, hblocks, hqueue⟩ := tracked_reset
    (s := ⟨RadixCache.new pageSize disable, fun _ => none, [], true⟩) hps rfl (H := H)
  refine ⟨ht, ?_, ?_⟩
  · show ∀ e ∈ (EventCache.reset _).kvEventQueue, e.Chained H
    rw [hqueue]
    simp [KvEvent.Chained]
  show (some (0 : Multiset Int)).bind (replay (EventCache.reset _).kvEventQueue) =
    some (EventCache.reset _).blocks
  rw [hqueue, hblocks]
  rfl

theorem Inv.takeEvents (h : Inv w) :
    Inv ⟨w.cache.takeEvents.2, w.seen.bind (replay w.cache.takeEvents.1)⟩ := by
  obtain ⟨⟨live, rp, pv, hwf, hh⟩, -, hseen⟩ := h
  have heq : w.cache.takeEvents = (w.cache.kvEventQueue, { w.cache with kvEventQueue := [] }) := by
    unfold EventCache.takeEvents
    rw [if_pos hh.enabled]
  rw [heq]
  refine ⟨⟨live, rp, pv, hwf, hh.enabled, hh.root, hh.node, hh.fresh⟩, by simp, ?_⟩
  rw [hseen]
  rfl

theorem Inv.step (h : Inv w) (hs : Step w w') : Inv w' := by
  cases hs with
  | insert params => exact h.follows (insert_follows w.cache params)
  | matchPrefix updateLru key => exact h.follows (matchPrefixWith_follows updateLru w.cache key)
  | incLockRef n hn =>
      exact h.follows (sameShape_follows (sameShape_incLockRef _ n) fun _ _ _ hw =>
        incLockRef_wf hw (hw.inTree_iff.mp hn))
  | decLockRef n hn =>
      exact h.follows (sameShape_follows (sameShape_decLockRef _ n) fun _ _ _ hw =>
        decLockRef_wf hw (hw.inTree_iff.mp hn))
  | incQueueRef n =>
      exact h.follows (sameTree_follows (queueOnly_incQueueRef w.cache.cache n).toSameTree)
  | resetAllQueueRefs =>
      exact h.follows (sameTree_follows (queueOnly_resetAllQueueRefs w.cache.cache).toSameTree)
  | evict e numTokens => exact h.follows (evict_follows w.cache e numTokens)
  | reset => exact h.follows (reset_follows w.cache)
  | takeEvents => exact h.takeEvents

theorem run_inv {pageSize : Nat} (hps : 0 < pageSize) {disable : Bool}
    (hrun : Relation.ReflTransGen Step (new H pageSize disable) w) : Inv w := by
  induction hrun with
  | refl => exact new_inv hps disable
  | tail _ hstep ih => exact ih.step hstep

/--
**The observer has the blocks of the tree.**  In every run of calls, with the events taken
whenever it likes, each event fits what it has seen, and what is still waiting makes up the rest.
A block is among them if and only if the tree holds pages whose hash it is; and whoever is told
of a new block is told by the same event which block it continues.
-/
theorem observer_has_blocks {pageSize : Nat} (hps : 0 < pageSize) {disable : Bool}
    (hrun : Relation.ReflTransGen Step (new H pageSize disable) w) :
    w.seen.bind (replay w.cache.kvEventQueue) = some w.cache.blocks ∧
      (∀ b, b ∈ w.cache.blocks ↔
        ∃ q, w.cache.cache.Holds q ∧ H.blockHash (q.map ChildKey.tokens) = some b) ∧
      ∀ e ∈ w.cache.kvEventQueue, e.Chained H := by
  obtain ⟨⟨live, rp, pv, h, hh⟩, hchained, hseen⟩ := run_inv hps hrun
  exact ⟨hseen, fun b => mem_blocks_iff hh h, hchained⟩

/-- Hashes that spell what was hashed. -/
def spelledHash : PageHash where
  Hash := List Token
  getHashStr tokenIds prior := prior.getD [] ++ tokenIds
  hashStrToInt64 hash := hash.foldl (fun b t => 10 * b + t) 0

/-- Two prompts that part after their first token, and then the events are taken. -/
def twoTold : WatchedCache spelledHash :=
  let told := ((EventCache.new spelledHash 1 false true).insert (HeldCache.plainPrompt [1, 2])).2
  let told := (told.insert (HeldCache.plainPrompt [1, 3])).2
  ⟨told.takeEvents.2, (some 0).bind (replay told.takeEvents.1)⟩

theorem observer_has_blocks_two :
    twoTold.seen = some {1, 12, 13} ∧ twoTold.cache.blocks = {1, 12, 13} := by
  have hrun : Relation.ReflTransGen Step (new spelledHash 1 false) twoTold :=
    ((Relation.ReflTransGen.refl.tail (Step.insert _ (HeldCache.plainPrompt [1, 2]))).tail
      (Step.insert _ (HeldCache.plainPrompt [1, 3]))).tail (Step.takeEvents _)
  have hseen : twoTold.seen = some {1, 12, 13} := by decide +kernel
  have hnone : twoTold.cache.kvEventQueue = [] := by decide +kernel
  have hblocks := (observer_has_blocks Nat.one_pos hrun).1
  rw [hnone, hseen] at hblocks
  exact ⟨hseen, (Option.some.inj hblocks).symm⟩

end WatchedCache

end Peek

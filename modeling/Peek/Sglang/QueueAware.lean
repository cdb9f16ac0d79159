/-
Queue-aware eviction (`queue_aware_eviction_priority`, and `QueueAwareStrategy` in
`patched_files/evict_policy.py`).

A leaf that some protected prefix runs through comes after every leaf that none does.  That
this spares more than leaves rests on the counts: they fall on the way down the tree, so
below a node with no lock and no reference there is a leaf with neither, and it is in the
heap.  The counts fall because every count is a number of climbs, and they stay such numbers
over any run in which locks are given back as they were taken (`HeldCache`).

The cost of a node is `math.log1p(ref_count) * max(depth, 1)`, a floating-point number.  All
that is used of it is that such numbers are compared: any function into any linear order.
-/
import Peek.Sglang.Evictions
import Mathlib.Data.Prod.Lex
import Mathlib.Order.Nat

namespace Peek

open Radix ParentChain

namespace RadixCache

/-- `queue_aware_eviction_priority` -/
def queueAwareEvictionPriority {κ : Type} (costScore : Nat → Nat → κ) (c : RadixCache)
    (n : NodeId) : Nat ×ₗ κ ×ₗ Nat :=
  let refCount := (c.node n).queueRefCount
  let isReferenced := if refCount > 0 then 1 else 0
  toLex (isReferenced,
    toLex (costScore refCount (max (c.node n).depth 1), (c.node n).lastAccessTime))

variable {c c' : RadixCache} {live live' : Set NodeId} {rp : NodeId → List ChildKey}
  {pv : NodeId → List Index} {locks refs : List NodeId} {n : NodeId}

/-- Deleting a node does not change the priority of another. -/
theorem queueAwareEvictionPriority_deleteLeaf {κ : Type} (costScore : Nat → Nat → κ)
    (c : RadixCache) (n m : NodeId) :
    queueAwareEvictionPriority costScore (c.deleteLeaf n) m =
      queueAwareEvictionPriority costScore c m := by
  unfold queueAwareEvictionPriority
  rw [proj_deleteLeaf (·.queueRefCount) (fun _ _ => rfl), proj_deleteLeaf (·.depth) (fun _ _ => rfl),
    proj_deleteLeaf (·.lastAccessTime) fun _ _ => rfl]

/-- What comes first among the leaves has a reference only if all of them have. -/
theorem referenced_of_le {κ : Type} [LinearOrder κ] {costScore : Nat → Nat → κ} {x y : NodeId}
    (hx : 0 < (c.node x).queueRefCount)
    (hle : queueAwareEvictionPriority costScore c x ≤ queueAwareEvictionPriority costScore c y) :
    0 < (c.node y).queueRefCount := by
  by_contra hy
  simp only [queueAwareEvictionPriority, gt_iff_lt, if_pos hx, if_neg hy] at hle
  rw [Prod.Lex.le_iff] at hle
  simp at hle

/-! ### Locks and leaves -/

/-- One turn of the lock loops leaves the tree in order and the leaves right. -/
theorem lockTurnKeeps_leaves :
    LockTurnKeeps live fun c => WF c live rp pv ∧ LeavesExact c live := by
  intro n c evictable guarded g ⟨h, hleaves⟩ hn hr
  refine ⟨lockTurnKeeps_wf n c evictable guarded g h hn hr, fun m => ?_⟩
  set c0 : RadixCache := { c with evictableSize := evictable, protectedSize := guarded } with hc0
  set write : TreeNode → TreeNode := fun m => { m with lockRef := g m.lockRef } with hwrite
  by_cases hm : m = n
  · have hnd : (c0.nodeMut n write).evictableLeaves.Nodup := h.leavesNodup
    rw [hm]
    refine leafStatus_updateLeafStatus_self hnd ?_ hn
    rw [node_nodeMut_ne c0 write (Ne.symm hr)]
    exact h.rootLock
  · rw [leafStatus_updateLeafStatus_ne hm]
    unfold LeafStatus
    rw [node_nodeMut_ne c0 write hm]
    exact hleaves m

theorem incLockRef_leaves (h : WF c live rp pv) (hleaves : LeavesExact c live) (hn : n ∈ live) :
    LeavesExact (c.incLockRef n) live :=
  (incLockRef_induct (fun _ h => h.1) lockTurnKeeps_leaves ⟨h, hleaves⟩ hn).2

theorem decLockRef_leaves (h : WF c live rp pv) (hleaves : LeavesExact c live) (hn : n ∈ live) :
    LeavesExact (c.decLockRef n) live :=
  (decLockRef_induct (fun _ h => h.1) lockTurnKeeps_leaves ⟨h, hleaves⟩ hn).2

/-! ### What the calls do to the balance -/

section

variable (h : WF c live rp pv) (hb : Balanced c live locks refs)
include h hb

theorem Balanced.incLockRef (hd : c.disable = false) (hn : n ∈ live) :
    Balanced (c.incLockRef n) live (n :: locks) refs where
  chained := (lockOnly_incLockRef c n).chained hb.chained
  locks := counted_incLockRef hd hb.chained hb.locks (h.bound n hn)
  refs := (lockOnly_incLockRef c n).counted hb.refs
  leaves := incLockRef_leaves h hb.leaves hn

theorem Balanced.decLockRef (hd : c.disable = false) (hn : n ∈ live) (hl : n ∈ locks) :
    Balanced (c.decLockRef n) live (locks.erase n) refs where
  chained := (lockOnly_decLockRef c n).chained hb.chained
  locks := counted_decLockRef hd hb.chained hb.locks hl
  refs := (lockOnly_decLockRef c n).counted hb.refs
  leaves := decLockRef_leaves h hb.leaves hn

omit h in
/-- Writes to queue references leave locks, links and leaves alone. -/
theorem Balanced.queueOnly (hq : QueueOnly c c') {refs' : List NodeId}
    (hrefs : Counted .queue c' live refs') : Balanced c' live locks refs' where
  chained := hq.chained hb.chained
  locks := hb.locks.of_links (funext hq.parent) hq.size hq.locks
  refs := hrefs
  leaves m := by
    unfold LeafStatus
    rw [hq.leaves, hq.children, hq.locks]
    exact hb.leaves m

end

/-- Below a node with no lock and no reference there is a leaf with neither. -/
theorem exists_free_leaf (h : WF c live rp pv) (hb : Balanced c live locks refs) : ∀ n ∈ live,
    (c.node n).lockRef = 0 → (c.node n).queueRefCount = 0 →
      ∃ y ∈ c.evictableLeaves, (c.node y).queueRefCount = 0 := by
  have hfin : live.Finite := (Set.finite_lt_nat c.nodes.size).subset h.bound
  refine h.labelled.down_induction hfin fun n hn ih hl hq => ?_
  have hr : n ≠ rootNode := by
    rintro rfl
    exact absurd h.rootLock (by rw [hl]; exact Int.lt_irrefl 0)
  by_cases hkids : (c.node n).children.entries = []
  · exact ⟨n, (hb.leaves n).mpr ⟨hn, hr, hkids, Int.le_of_eq hl⟩, hq⟩
  · rw [Map.entries_eq_nil_iff, not_forall] at hkids
    obtain ⟨a, ha⟩ := hkids
    obtain ⟨k, hk⟩ := Option.ne_none_iff_exists'.mp ha
    have hk : c.heap.kid n a = some k := hk
    have hkl := h.labelled.kidLive hn hk
    have hkr := h.labelled.kid_ne_root hn hk
    have hparent : c.parentOf k = n := h.labelled.kidParent hn hk
    have hlock := hb.locks.le_parent hb.chained hkl hkr (hparent.symm ▸ hn) (hparent.symm ▸ hr)
    have hqueue := hb.refs.le_parent hb.chained hkl hkr (hparent.symm ▸ hn) (hparent.symm ▸ hr)
    rw [hparent] at hlock hqueue
    refine ih a k hk (Int.le_antisymm (hlock.trans (Int.le_of_eq hl)) (hb.lock_nonneg h hkl)) ?_
    have hle : ((c.node k).queueRefCount : Int) ≤ ((c.node n).queueRefCount : Int) := hqueue
    omega

end RadixCache

/-! ### Runs -/

/-- A cache, and the nodes whose locks have not been given back yet. -/
structure HeldCache where
  cache : RadixCache
  locks : List NodeId

namespace HeldCache

def new (pageSize : Nat) (disable : Bool) : HeldCache :=
  { cache := RadixCache.new pageSize disable, locks := [] }

/--
One call on the cache.  A lock is given back only where one was taken; both, like a queue
reference, are for nodes of the tree.
-/
inductive Step : HeldCache → HeldCache → Prop
  | insert (s : HeldCache) (params : RadixCache.InsertParams) :
      Step s { s with cache := (s.cache.insert params).2 }
  | matchPrefix (s : HeldCache) (key : RadixKey) :
      Step s { s with cache := (s.cache.matchPrefix key).2 }
  | matchPrefixReadonly (s : HeldCache) (key : RadixKey) :
      Step s { s with cache := (s.cache.matchPrefixReadonly key).2 }
  | incLockRef (s : HeldCache) (n : NodeId) (hn : s.cache.InTree n) :
      Step s { cache := s.cache.incLockRef n, locks := n :: s.locks }
  | decLockRef (s : HeldCache) (n : NodeId) (hn : s.cache.InTree n) (hl : n ∈ s.locks) :
      Step s { cache := s.cache.decLockRef n, locks := s.locks.erase n }
  | incQueueRef (s : HeldCache) (n : NodeId) (hn : s.cache.InTree n) :
      Step s { s with cache := s.cache.incQueueRef n }
  | resetAllQueueRefs (s : HeldCache) : Step s { s with cache := s.cache.resetAllQueueRefs }
  | evict (s : HeldCache) (e : RadixCache.EvictionHeap) (numTokens : Nat) :
      Step s { s with cache := (s.cache.evict e numTokens).2 }

open RadixCache

/-- The tree is in order; and balanced, unless the cache is off, when locks count nothing. -/
def Inv (s : HeldCache) : Prop :=
  ∃ live rp pv, WF s.cache live rp pv ∧
    (s.cache.disable = false → ∃ refs, Balanced s.cache live s.locks refs)

theorem new_inv {pageSize : Nat} (hps : 0 < pageSize) (disable : Bool) :
    Inv (new pageSize disable) := by
  refine ⟨_, _, _, new_wf hps disable, fun _ => ⟨[], ?_⟩⟩
  refine ⟨⟨Nat.one_pos, fun n hn hr => ?_, fun n hn => ?_⟩, ?_, ?_, fun n => ?_⟩
  · exact absurd (Nat.lt_one_iff.mp hn) hr
  · rw [Nat.lt_one_iff.mp hn]
    exact ⟨0, Up.root⟩
  · exact ⟨fun e he => by simp [new] at he, fun n hn hr => absurd hn hr⟩
  · exact ⟨fun e he => by simp at he, fun n hn hr => absurd hn hr⟩
  · exact iff_of_false (fun hmem => by simp [new, RadixCache.new] at hmem) fun h => h.2.1 h.1

variable {s s' : HeldCache}

theorem Inv.step (h : Inv s) (hs : Step s s') : Inv s' := by
  obtain ⟨live, rp, pv, h, hb⟩ := h
  cases hs with
  | insert params =>
      obtain ⟨live', rp', pv', hwf, hmove⟩ := insert_moves h params
      have hkeep := hmove.keeps
      refine ⟨live', rp', pv', hwf, fun hd => ?_⟩
      obtain ⟨refs, hb⟩ := hb (hkeep.disable ▸ hd)
      exact ⟨refs, hb.keeps hkeep⟩
  | matchPrefix key =>
      obtain ⟨live', rp', pv', hwf, hmove, -⟩ := matchPrefixWith_moves h true key
      have hkeep := hmove.keeps
      refine ⟨live', rp', pv', hwf, fun hd => ?_⟩
      obtain ⟨refs, hb⟩ := hb (hkeep.disable ▸ hd)
      exact ⟨refs, hb.keeps hkeep⟩
  | matchPrefixReadonly key =>
      obtain ⟨live', rp', pv', hwf, hmove, -⟩ := matchPrefixWith_moves h false key
      have hkeep := hmove.keeps
      refine ⟨live', rp', pv', hwf, fun hd => ?_⟩
      obtain ⟨refs, hb⟩ := hb (hkeep.disable ▸ hd)
      exact ⟨refs, hb.keeps hkeep⟩
  | incLockRef n hn =>
      have hn := h.inTree_iff.mp hn
      refine ⟨live, rp, pv, incLockRef_wf h hn, fun hd => ?_⟩
      have hd : s.cache.disable = false := (later_incLockRef s.cache n).disable ▸ hd
      obtain ⟨refs, hb⟩ := hb hd
      exact ⟨refs, hb.incLockRef h hd hn⟩
  | decLockRef n hn hl =>
      have hn := h.inTree_iff.mp hn
      refine ⟨live, rp, pv, decLockRef_wf h hn, fun hd => ?_⟩
      have hd : s.cache.disable = false := (later_decLockRef s.cache n).disable ▸ hd
      obtain ⟨refs, hb⟩ := hb hd
      exact ⟨refs, hb.decLockRef h hd hn hl⟩
  | incQueueRef n hn =>
      have hn := h.inTree_iff.mp hn
      have hq := queueOnly_incQueueRef s.cache n
      refine ⟨live, rp, pv, h.sameTree hq.toSameTree, fun hd => ?_⟩
      obtain ⟨refs, hb⟩ := hb (hq.sameDisable ▸ hd)
      exact ⟨n :: refs, hb.queueOnly hq (counted_incQueueRef hb.chained hb.refs (h.bound n hn))⟩
  | resetAllQueueRefs =>
      have hq := queueOnly_resetAllQueueRefs s.cache
      refine ⟨live, rp, pv, h.sameTree hq.toSameTree, fun hd => ?_⟩
      obtain ⟨refs, hb⟩ := hb (hq.sameDisable ▸ hd)
      exact ⟨[], hb.queueOnly hq (counted_resetAllQueueRefs h)⟩
  | evict e numTokens =>
      obtain ⟨live', hwf, hmove⟩ := evict_moves h e numTokens
      have hkeep := hmove.keeps
      refine ⟨live', rp, pv, hwf, fun hd => ?_⟩
      obtain ⟨refs, hb⟩ := hb (hkeep.disable ▸ hd)
      exact ⟨refs, hb.keeps hkeep⟩

theorem run_inv {pageSize : Nat} (hps : 0 < pageSize) {disable : Bool}
    (hrun : Relation.ReflTransGen Step (new pageSize disable) s) : Inv s := by
  induction hrun with
  | refl => exact new_inv hps disable
  | tail _ hstep ih => exact ih.step hstep

/--
**Queue-aware eviction takes what no prefix needs first.**  In any run of calls an eviction,
of any number of tokens and with any costs, is a series of deletions; each of them takes an
unlocked node of the tree as it is then, and one with a queue reference only when no node of
that tree has neither a lock nor a reference.
-/
theorem evict_queueAware {pageSize : Nat} (hps : 0 < pageSize) {disable : Bool}
    (hrun : Relation.ReflTransGen Step (new pageSize disable) s) {κ : Type} [LinearOrder κ]
    (costScore : Nat → Nat → κ) (q : HeapQ (Nat ×ₗ κ ×ₗ Nat)) (numTokens : Nat) :
    (s.cache.evict (q.evictionHeap (queueAwareEvictionPriority costScore)) numTokens).2 =
      s.cache.afterDeleting
        (s.cache.evicted (q.evictionHeap (queueAwareEvictionPriority costScore)) numTokens) ∧
    ∀ pre x post, s.cache.evicted (q.evictionHeap (queueAwareEvictionPriority costScore))
        numTokens = pre ++ x :: post →
      (s.cache.afterDeleting pre).InTree x ∧ ((s.cache.afterDeleting pre).node x).lockRef = 0 ∧
      (0 < ((s.cache.afterDeleting pre).node x).queueRefCount →
        ∀ n, (s.cache.afterDeleting pre).InTree n →
          ¬ (((s.cache.afterDeleting pre).node n).lockRef = 0 ∧
            ((s.cache.afterDeleting pre).node n).queueRefCount = 0)) := by
  refine ⟨evict_eq _ _ _, fun pre x post hx => ?_⟩
  obtain ⟨live, rp, pv, h, hb⟩ := run_inv hps hrun
  have hd : s.cache.disable = false := by
    by_contra hd
    unfold evicted at hx
    rw [if_pos (by simpa using hd)] at hx
    simp at hx
  obtain ⟨refs, hb⟩ := hb hd
  obtain ⟨⟨live', -, hwf, hbal⟩, hleaf, hleast⟩ := evicted_least q
    (queueAwareEvictionPriority_deleteLeaf costScore) h hb hx
  obtain ⟨hxl, -, -, hlock⟩ := (hbal.leaves x).mp hleaf
  refine ⟨hwf.inTree_iff.mpr hxl, Int.le_antisymm hlock (hbal.lock_nonneg hwf hxl), ?_⟩
  intro href n hn hfree
  obtain ⟨y, hy, hyq⟩ := exists_free_leaf hwf hbal n (hwf.inTree_iff.mp hn) hfree.1 hfree.2
  have := referenced_of_le href (hleast y hy)
  omega

/-- A prompt without a namespace; its tokens stand in for the indices. -/
def plainPrompt (tokenIds : List Token) : InsertParams where
  key := ⟨tokenIds, none⟩
  value := none
  priority := 0
  value_length _ h := nomatch h

/-- Two prompts, of which the first is protected. -/
def twoPrompts : HeldCache :=
  { cache := ((createSimulated.insert (plainPrompt [1, 2])).2.insert
      (plainPrompt [3, 4])).2.incQueueRef 1
    locks := [] }

theorem twoPrompts_run : Relation.ReflTransGen Step (new 1 false) twoPrompts := by
  have h1 := Step.insert (new 1 false) (plainPrompt [1, 2])
  have h2 := Step.insert ⟨(createSimulated.insert (plainPrompt [1, 2])).2, []⟩ (plainPrompt [3, 4])
  have hn : ((createSimulated.insert (plainPrompt [1, 2])).2.insert
      (plainPrompt [3, 4])).2.InTree 1 :=
    Below.step (a := ⟨none, .token 1⟩) (by decide) (Below.refl 1)
  exact ((Relation.ReflTransGen.refl.tail h1).tail h2).tail (Step.incQueueRef _ 1 hn)

/-- The second prompt goes first, and the first one after it. -/
theorem evict_queueAware_two :
    twoPrompts.cache.evicted (HeapQ.sorted.evictionHeap
      (queueAwareEvictionPriority fun refs depth => refs * depth)) 4 = [2, 1] ∧
    (twoPrompts.cache.InTree 2 ∧ (twoPrompts.cache.node 2).lockRef = 0 ∧
      (0 < (twoPrompts.cache.node 2).queueRefCount → ∀ n, twoPrompts.cache.InTree n →
        ¬ ((twoPrompts.cache.node n).lockRef = 0 ∧
          (twoPrompts.cache.node n).queueRefCount = 0))) := by
  have hlist : twoPrompts.cache.evicted (HeapQ.sorted.evictionHeap
      (queueAwareEvictionPriority fun refs depth => refs * depth)) 4 = [2, 1] := by decide
  exact ⟨hlist, (evict_queueAware Nat.one_pos twoPrompts_run (fun refs depth => refs * depth)
    HeapQ.sorted 4).2 [] 2 [1] hlist⟩

end HeldCache

end Peek

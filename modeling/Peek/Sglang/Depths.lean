/-
The depths that the patch keeps on the nodes (`_split_node` and `_insert_helper` of
`patched_files/radix_cache.py`), by which eviction weighs what a node would cost.

A depth is written when a node is made, and never again.  It stays right, though splits shorten
the keys of old nodes and put new ones above them: a node ends where it ended.  So every object
ends as far below its parent as its key is long (`Depths`), and the lengths add up along the
chain to the root (`depths_run`).
-/
import Peek.Sglang.QueueAware

namespace Peek

open Radix ParentChain

namespace RadixCache

variable {c c' : RadixCache} {live : Set NodeId} {rp : NodeId → List ChildKey}
  {pv : NodeId → List Index}

/-- Every object ends below its parent, by the length of its key. -/
structure Depths (c : RadixCache) : Prop where
  root : (c.node rootNode).depth = 0
  below : ∀ n, n < c.nodes.size → n ≠ rootNode →
    (c.node n).depth = (c.node (c.parentOf n)).depth + (c.node n).key.length

/-- **A depth is the sum of the lengths on the way to the root.** -/
theorem Depths.depth_eq (h : Depths c) (hc : Chained c) {n : NodeId} (hn : n < c.nodes.size) :
    (c.node n).depth = ((c.chain n).map fun m => (c.node m).key.length).sum := by
  have hclimb : ∀ {k : Nat} {n : NodeId}, Up c.parentOf rootNode k n → n < c.nodes.size →
      ∀ fuel, k ≤ fuel → (c.node n).depth =
        ((climbed c.parentOf rootNode fuel n).map fun m => (c.node m).key.length).sum := by
    intro k n hup
    induction hup with
    | root =>
        intro _ fuel _
        rw [h.root]
        cases fuel with
        | zero => rfl
        | succ fuel => simp [climbed]
    | @step k n hr _ ih =>
        intro hn fuel hk
        obtain ⟨fuel, rfl⟩ := Nat.exists_eq_succ_of_ne_zero (Nat.ne_of_gt (Nat.zero_lt_of_lt hk))
        have hparent := ih (hc.parent n hn hr) fuel (Nat.le_of_succ_le_succ hk)
        unfold climbed
        rw [if_neg hr, List.map_cons, List.sum_cons, ← hparent, h.below n hn hr, Nat.add_comm]
  obtain ⟨k, hle, hup⟩ := hc.up_le hn
  exact hclimb hup hn _ hle

/-! ### What writes no depth -/

/-- The same objects, links, keys and depths. -/
structure SameDepths (c c' : RadixCache) : Prop where
  size : c'.nodes.size = c.nodes.size
  parent : ∀ n, c'.parentOf n = c.parentOf n
  key : ∀ n, (c'.node n).key = (c.node n).key
  depth : ∀ n, (c'.node n).depth = (c.node n).depth

namespace SameDepths

theorem refl (c : RadixCache) : SameDepths c c := ⟨rfl, fun _ => rfl, fun _ => rfl, fun _ => rfl⟩

theorem trans {c1 c2 c3 : RadixCache} (h : SameDepths c1 c2) (h' : SameDepths c2 c3) :
    SameDepths c1 c3 where
  size := h'.size.trans h.size
  parent n := (h'.parent n).trans (h.parent n)
  key n := (h'.key n).trans (h.key n)
  depth n := (h'.depth n).trans (h.depth n)

theorem depths (h : SameDepths c c') (hd : Depths c) : Depths c' where
  root := (h.depth rootNode).trans hd.root
  below n hn hr := by
    rw [h.size] at hn
    rw [h.depth, h.parent, h.depth, h.key]
    exact hd.below n hn hr

end SameDepths

theorem sameDepths_nodeMut (c : RadixCache) (j : NodeId) {f : TreeNode → TreeNode}
    (hp : ∀ n, (f n).parent = n.parent) (hk : ∀ n, (f n).key = n.key)
    (hd : ∀ n, (f n).depth = n.depth) : SameDepths c (c.nodeMut j f) where
  size := size_nodeMut c j f
  parent := proj_nodeMut (·.parent) c j f hp
  key := proj_nodeMut (·.key) c j f hk
  depth := proj_nodeMut (·.depth) c j f hd

theorem SameDepths.of_node (hsize : c'.nodes.size = c.nodes.size)
    (hnode : ∀ n, c'.node n = c.node n) : SameDepths c c' where
  size := hsize
  parent n := congrArg (·.parent) (hnode n)
  key n := congrArg (·.key) (hnode n)
  depth n := congrArg (·.depth) (hnode n)

theorem sameDepths_updateLeafStatus (c : RadixCache) (n : NodeId) :
    SameDepths c (c.updateLeafStatus n) :=
  SameDepths.of_node (size_updateLeafStatus c n) (node_updateLeafStatus c n)

theorem sameDepths_deleteLeaf (c : RadixCache) (n : NodeId) : SameDepths c (c.deleteLeaf n) where
  size := by
    unfold deleteLeaf
    rw [size_updateLeafStatus]
    exact size_nodeMut c _ _
  parent := proj_deleteLeaf (·.parent) (fun _ _ => rfl) c n
  key := proj_deleteLeaf (·.key) (fun _ _ => rfl) c n
  depth := proj_deleteLeaf (·.depth) (fun _ _ => rfl) c n

theorem sameDepths_lockTurn (c : RadixCache) (n : NodeId) (b : Prop) [Decidable b]
    (evictable guarded : Int) (g : Int → Int) :
    SameDepths c (((if b then { c with evictableSize := evictable, protectedSize := guarded }
      else c).nodeMut n fun m => { m with lockRef := g m.lockRef }).updateLeafStatus n) := by
  have hsizes : SameDepths c
      (if b then { c with evictableSize := evictable, protectedSize := guarded } else c) := by
    split
    · exact SameDepths.of_node rfl fun _ => rfl
    · exact SameDepths.refl c
  exact (hsizes.trans (sameDepths_nodeMut _ n (f := fun m => { m with lockRef := g m.lockRef })
    (fun _ => rfl) (fun _ => rfl) fun _ => rfl)).trans (sameDepths_updateLeafStatus _ n)

theorem sameDepths_setQueueRef (c : RadixCache) (n : NodeId) (f : Nat → Nat) :
    SameDepths c (c.setQueueRef n f) :=
  sameDepths_nodeMut c n (fun _ => rfl) (fun _ => rfl) fun _ => rfl

theorem sameDepths_incQueueRef (c : RadixCache) (n : NodeId) : SameDepths c (c.incQueueRef n) :=
  climb_rel SameDepths.refl SameDepths.trans (fun n c => sameDepths_setQueueRef c n _) _ n c

theorem sameDepths_resetAllQueueRefs (c : RadixCache) : SameDepths c c.resetAllQueueRefs :=
  resetLoop_rel SameDepths.refl SameDepths.trans sameDepths_setQueueRef _ _ c

/-! ### What makes a node -/

/-- The node above ends where it is cut, and the node below where it ended. -/
theorem depths_splitNode (hd : Depths c) (hc : Chained c) {ch : NodeId} (hch : ch < c.nodes.size)
    (hr : ch ≠ rootNode) {len : Nat} (hlen : len < (c.node ch).key.length) :
    Depths (c.splitNode ch len).1 := by
  obtain ⟨hsize, hbelow, habove, hsame, -⟩ := splitNode_links c hch len
  obtain ⟨hupper, hdepth⟩ :=
    proj_splitNode (·.depth) (fun _ _ _ _ => rfl) (fun _ _ => rfl) c ch len
  obtain ⟨hnew, hold⟩ := node_pushNode c (c.upperHalf ch len)
  have hkey : ∀ n, ((c.splitNode ch len).1.node n).key =
      (((c.pushNode (c.upperHalf ch len)).nodeMut ch (c.lowerHalf ch len)).node n).key :=
    fun n => proj_nodeMut (·.key) _ _ (c.withUpper ch) (fun _ => rfl) n
  refine ⟨(hdepth _ hc.root).trans hd.root, fun n hn hnr => ?_⟩
  rw [hsize] at hn
  by_cases hnu : n = c.nodes.size
  · -- the node above
    rw [hnu, habove, hupper, hdepth _ (hc.parent ch hch hr), hkey,
      node_nodeMut_ne _ _ (Ne.symm (Nat.ne_of_lt hch)), hnew]
    show (c.node (c.parentOf ch)).depth + len = _ + ((c.node ch).key.tokenIds.take len).length
    rw [List.length_take_of_le (Nat.le_of_lt hlen)]
  · have hn : n < c.nodes.size := by omega
    by_cases hnc : n = ch
    · -- the node below
      rw [hnc, hbelow, hupper, hdepth ch hch, hkey, node_nodeMut_self _ _
        (by rw [size_pushNode]; exact Nat.lt_succ_of_lt hch), hd.below ch hch hr]
      show (c.node (c.parentOf ch)).depth + (c.node ch).key.length =
        (c.node (c.parentOf ch)).depth + len + ((c.node ch).key.tokenIds.drop len).length
      rw [List.length_drop]
      have hlength : (c.node ch).key.tokenIds.length = (c.node ch).key.length := rfl
      omega
    · rw [hsame n hn hnc, hdepth n hn, hdepth _ (hc.parent n hn hnr), hkey,
        node_nodeMut_ne _ _ hnc, hold n hn]
      exact hd.below n hn hnr

theorem depths_addLeaf (hd : Depths c) (hc : Chained c) {w : InsertWalk}
    (hw : w.node < c.nodes.size) (priority : Int) : Depths (c.addLeaf w priority) := by
  obtain ⟨hsize, hparent, hsame, -⟩ := addLeaf_links c w priority
  obtain ⟨hnew, hold⟩ := node_pushNode c (c.newLeaf w priority)
  have hnode : ∀ n, (c.addLeaf w priority).node n =
      ((c.pushNode (c.newLeaf w priority)).nodeMut w.node (c.withLeaf w)).node n := by
    intro n
    unfold addLeaf
    rw [node_updateLeafStatus, node_updateLeafStatus, node_linkLeaf]
  have hdepth : ∀ n, ((c.addLeaf w priority).node n).depth =
      ((c.pushNode (c.newLeaf w priority)).node n).depth := fun n => by
    rw [hnode]
    exact proj_nodeMut (·.depth) _ w.node (c.withLeaf w) (fun _ => rfl) n
  have hkey : ∀ n, ((c.addLeaf w priority).node n).key =
      ((c.pushNode (c.newLeaf w priority)).node n).key := fun n => by
    rw [hnode]
    exact proj_nodeMut (·.key) _ w.node (c.withLeaf w) (fun _ => rfl) n
  refine ⟨by rw [hdepth, hold _ hc.root]; exact hd.root, fun n hn hr => ?_⟩
  rw [hsize] at hn
  by_cases hnu : n = c.nodes.size
  · rw [hnu, hparent, hdepth, hdepth, hkey, hnew, hold _ hw]
    rfl
  · have hn : n < c.nodes.size := by omega
    rw [hsame n hn, hdepth, hdepth, hkey, hold n hn, hold _ (hc.parent n hn hr)]
    exact hd.below n hn hr

theorem Move.depths {x y : RadixCache × Set NodeId} (hm : Move x y) (hc : Chained x.1)
    (hd : Depths x.1) : Depths y.1 := by
  cases hm with
  | tick c live k =>
      have hsame : SameDepths c (c.tick k) := SameDepths.of_node rfl fun _ => rfl
      exact hsame.depths hd
  | touch c live j hf hq hdepth =>
      exact (sameDepths_nodeMut c j hf.parent hf.key hdepth).depths hd
  | split h hch hr hlen => exact depths_splitNode hd hc (h.bound _ hch) hr hlen
  | addLeaf h hw priority => exact depths_addLeaf hd hc (h.bound _ hw) priority
  | deleteLeaf h hn hr => exact (sameDepths_deleteLeaf _ _).depths hd

/-- **Moves keep the depths right.** -/
theorem Moves.depths {live' : Set NodeId} (hm : Moves c live c' live') (hc : Chained c)
    (hd : Depths c) : Depths c' := by
  suffices key : ∀ x y : RadixCache × Set NodeId, Relation.ReflTransGen Move x y → Chained x.1 →
      Depths x.1 → Chained y.1 ∧ Depths y.1 from (key _ _ hm hc hd).2
  intro x y hxy hc hd
  induction hxy with
  | refl => exact ⟨hc, hd⟩
  | tail _ hmove ih => exact ⟨hmove.keeps.chained ih.1, hmove.depths ih.1 ih.2⟩

end RadixCache

namespace HeldCache

open RadixCache

/-- The tree is in order, all links lead to the root, and the depths are right. -/
def DepthsRight (s : HeldCache) : Prop :=
  ∃ live rp pv, WF s.cache live rp pv ∧ Chained s.cache ∧ Depths s.cache

variable {s s' : HeldCache}

theorem new_depthsRight {pageSize : Nat} (hps : 0 < pageSize) (disable : Bool) :
    DepthsRight (new pageSize disable) := by
  have hroot : ∀ n, n < (new pageSize disable).cache.nodes.size → n = rootNode := fun n hn =>
    Nat.lt_one_iff.mp hn
  refine ⟨_, _, _, new_wf hps disable, ⟨Nat.one_pos, fun n hn hr => absurd (hroot n hn) hr,
    fun n hn => ?_⟩, rfl, fun n hn hr => absurd (hroot n hn) hr⟩
  rw [hroot n hn]
  exact ⟨0, Up.root⟩

theorem DepthsRight.step (h : DepthsRight s) (hs : Step s s') : DepthsRight s' := by
  obtain ⟨live, rp, pv, h, hc, hd⟩ := h
  cases hs with
  | insert params =>
      obtain ⟨live', rp', pv', hwf, hmove⟩ := insert_moves h params
      exact ⟨live', rp', pv', hwf, hmove.keeps.chained hc, hmove.depths hc hd⟩
  | matchPrefix key =>
      obtain ⟨live', rp', pv', hwf, hmove, -⟩ := matchPrefixWith_moves h true key
      exact ⟨live', rp', pv', hwf, hmove.keeps.chained hc, hmove.depths hc hd⟩
  | matchPrefixReadonly key =>
      obtain ⟨live', rp', pv', hwf, hmove, -⟩ := matchPrefixWith_moves h false key
      exact ⟨live', rp', pv', hwf, hmove.keeps.chained hc, hmove.depths hc hd⟩
  | incLockRef n hn =>
      exact ⟨live, rp, pv, incLockRef_wf h (h.inTree_iff.mp hn),
        (lockOnly_incLockRef s.cache n).chained hc, (lock_rel SameDepths.refl SameDepths.trans sameDepths_lockTurn s.cache n).1.depths hd⟩
  | decLockRef n hn hl =>
      exact ⟨live, rp, pv, decLockRef_wf h (h.inTree_iff.mp hn),
        (lockOnly_decLockRef s.cache n).chained hc, (lock_rel SameDepths.refl SameDepths.trans sameDepths_lockTurn s.cache n).2.depths hd⟩
  | incQueueRef n hn =>
      have hq := queueOnly_incQueueRef s.cache n
      exact ⟨live, rp, pv, h.sameTree hq.toSameTree, hq.chained hc,
        (sameDepths_incQueueRef s.cache n).depths hd⟩
  | resetAllQueueRefs =>
      have hq := queueOnly_resetAllQueueRefs s.cache
      exact ⟨live, rp, pv, h.sameTree hq.toSameTree, hq.chained hc,
        (sameDepths_resetAllQueueRefs s.cache).depths hd⟩
  | evict e numTokens =>
      obtain ⟨live', hwf, hmove⟩ := evict_moves h e numTokens
      exact ⟨live', rp, pv, hwf, hmove.keeps.chained hc, hmove.depths hc hd⟩

theorem run_depthsRight {pageSize : Nat} (hps : 0 < pageSize) {disable : Bool}
    (hrun : Relation.ReflTransGen Step (new pageSize disable) s) : DepthsRight s := by
  induction hrun with
  | refl => exact new_depthsRight hps disable
  | tail _ hstep ih => exact ih.step hstep

/--
**Depths are what they stand for.**  After any run of calls, with any keys and pages, the depth of
every node in the tree is the sum of the key lengths on its way from the root.  And in every cache
the node that a split makes starts with the counts of the node it is put above.
-/
theorem depths_run {pageSize : Nat} (hps : 0 < pageSize) {disable : Bool}
    (hrun : Relation.ReflTransGen Step (new pageSize disable) s) :
    (∀ n, s.cache.InTree n → (s.cache.node n).depth =
      ((s.cache.chain n).map fun m => (s.cache.node m).key.length).sum) ∧
    ∀ (c : RadixCache) (child : NodeId) (splitLen : Nat), child < c.nodes.size →
      let (c', newNode) := c.splitNode child splitLen
      c'.parentOf child = newNode ∧
        (c'.node newNode).queueRefCount = (c'.node child).queueRefCount ∧
        (c'.node newNode).lockRef = (c'.node child).lockRef := by
  constructor
  · intro n hn
    obtain ⟨live, rp, pv, h, hc, hd⟩ := run_depthsRight hps hrun
    exact hd.depth_eq hc (h.bound n (h.inTree_iff.mp hn))
  · intro c child splitLen hchild
    obtain ⟨-, hparent, -⟩ := splitNode_links c hchild splitLen
    obtain ⟨hqueue, hqueue'⟩ :=
      proj_splitNode (·.queueRefCount) (fun _ _ _ _ => rfl) (fun _ _ => rfl) c child splitLen
    obtain ⟨hlock, hlock'⟩ :=
      proj_splitNode (·.lockRef) (fun _ _ _ _ => rfl) (fun _ _ => rfl) c child splitLen
    exact ⟨hparent, hqueue.trans (hqueue' child hchild).symm, hlock.trans (hlock' child hchild).symm⟩

/-- Two prompts that part after a token: the first is split, and the second hung below. -/
def parted : HeldCache :=
  { cache := ((createSimulated.insert (plainPrompt [1, 2])).2.insert (plainPrompt [1, 3, 4])).2
    locks := [] }

/-- Both prompts end below the node of the token that they share. -/
theorem depths_run_parted :
    (parted.cache.node 1).depth =
        ((parted.cache.chain 1).map fun m => (parted.cache.node m).key.length).sum ∧
      parted.cache.chain 1 = [1, 2] ∧ (parted.cache.node 1).depth = 2 := by
  have h1 := Step.insert (new 1 false) (plainPrompt [1, 2])
  have h2 := Step.insert ⟨(createSimulated.insert (plainPrompt [1, 2])).2, []⟩
    (plainPrompt [1, 3, 4])
  have hrun : Relation.ReflTransGen Step (new 1 false) parted :=
    (Relation.ReflTransGen.refl.tail h1).tail h2
  have hshared : parted.cache.heap.kid rootNode ⟨none, .token 1⟩ = some 2 := by decide
  have hrest : parted.cache.heap.kid 2 ⟨none, .token 2⟩ = some 1 := by decide
  have hn : parted.cache.InTree 1 := Below.step hshared (Below.step hrest (Below.refl 1))
  exact ⟨(depths_run Nat.one_pos hrun).1 1 hn, by decide, by decide⟩

end HeldCache

end Peek

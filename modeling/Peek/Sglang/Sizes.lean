/-
The sizes the cache keeps, and how much an eviction gives.

`evictable_size_` and `protected_size_` are counters that insertions, lock calls and evictions
add to and take from; the scheduler admits requests by them.  In every run they are what they
stand for: the tokens of the unlocked nodes, and of the locked ones (`SizesExact`).  An eviction
then gives what it is asked for unless less is evictable, and stops as soon as it has given
enough.
-/
import Peek.Base.DepthFirst
import Peek.Sglang.Sums

namespace Peek

open Radix StackWalk DepthFirst

namespace RadixCache

variable {c c' : RadixCache} {live live' : Set NodeId} {rp rp' : NodeId → List ChildKey}
  {pv pv' : NodeId → List Index} {locks refs : List NodeId}

/-! ### Going through the whole tree -/

/-- `_dfs_helper` of `all_values_flatten`; the fuel bounds the depth of the recursion. -/
def dfsHelper (c : RadixCache) : Nat → NodeId → List Index
  | 0, _ => []
  | fuel + 1, node =>
      (Map.values (c.node node).children).flatMap fun child =>
        (c.node child).value ++ c.dfsHelper fuel child

def allValuesFlatten (c : RadixCache) : List Index := c.dfsHelper c.nodes.size rootNode

/-- The children of a node, in the order of the dictionary. -/
def childList (c : RadixCache) (n : NodeId) : List NodeId := Map.values (c.node n).children

theorem listsKids_childList (c : RadixCache) : ListsKids c.heap c.childList := fun _ _ =>
  Map.mem_values

theorem WF.isForest_childList (h : WF c live rp pv) : IsForest c.childList live :=
  h.labelled.isForest (listsKids_childList c) fun _ hn =>
    List.nodup_reverse.mp (nodup_kids h hn)

theorem dfsHelper_eq (c : RadixCache) : ∀ (fuel : Nat) (n : NodeId),
    c.dfsHelper fuel n = (descendants c.childList fuel n).flatMap fun k => (c.node k).value := by
  intro fuel
  induction fuel with
  | zero => intro n; rfl
  | succ fuel ih =>
      intro n
      rw [dfsHelper, descendants, List.flatMap_assoc]
      refine congrArg (fun g => (c.childList n).flatMap g) (funext fun k => ?_)
      rw [List.flatMap_cons, ih]

/-- The nodes below the root, depth first. -/
theorem mem_descendants_root (h : WF c live rp pv) (n : NodeId) :
    n ∈ descendants c.childList c.nodes.size rootNode ↔ n ∈ live ∧ n ≠ rootNode := by
  have hroot : rootNode ∈ live := h.labelled.rootLive
  have hforest := h.isForest_childList
  constructor
  · intro hmem
    obtain ⟨k, hk, hu⟩ := under_of_mem hmem
    refine ⟨hforest.mem_of_under (Under.step hk hu) hroot, ?_⟩
    rintro rfl
    exact hforest.acyclic rootNode hroot k hk hu
  · intro hn
    refine mem_descendants hforest c.nodes.size rootNode (Finset.range c.nodes.size) hroot
      (fun m hm => Finset.mem_range.mpr (h.bound m (hforest.mem_of_under hm hroot)))
      (by rw [Finset.card_range]; exact Nat.le_succ _) n ?_ hn.2
    exact (under_iff_below (listsKids_childList c)).mpr (h.labelled.live_iff_below.mp hn.1)

theorem sum_heldIndices_list (l : List NodeId) (f : NodeId → List Index) :
    (l.map fun n => (f n : Multiset Index)).sum = (l.flatMap f : Multiset Index) := by
  induction l with
  | nil => rfl
  | cons n l ih => rw [List.map_cons, List.sum_cons, ih, List.flatMap_cons, Multiset.coe_add]

/-- **Flattening the tree lists the indices of all its nodes.** -/
theorem WF.allValuesFlatten (h : WF c live rp pv) :
    (c.allValuesFlatten : Multiset Index) = c.sum heldIndices := by
  set l := descendants c.childList c.nodes.size rootNode with hl
  have hnd : l.Nodup := nodup_descendants h.isForest_childList _ _ h.labelled.rootLive
  have htree : c.tree = Insert.insert rootNode l.toFinset := by
    ext n
    rw [Finset.mem_insert, List.mem_toFinset, mem_descendants_root h, h.mem_tree]
    by_cases hr : n = rootNode
    · rw [hr]
      exact iff_of_true h.labelled.rootLive (Or.inl rfl)
    · exact ⟨fun hn => Or.inr ⟨hn, hr⟩, fun hn => (hn.resolve_left hr).1⟩
  have hroot : rootNode ∉ l.toFinset := by
    rw [List.mem_toFinset, mem_descendants_root h]
    exact fun hn => hn.2 rfl
  have hempty : ((c.node rootNode).value : Multiset Index) = 0 := by
    rw [h.root_empty.2]
    rfl
  unfold RadixCache.allValuesFlatten sum CellSum.total
  rw [dfsHelper_eq, htree, Finset.sum_insert hroot, List.sum_toFinset _ hnd]
  simp only [TreeNode.weigh, heldIndices]
  rw [hempty, zero_add, sum_heldIndices_list]

theorem totalLoop_eq (c : RadixCache) : ∀ (fuel : Nat) (stack : List NodeId) (total : Nat),
    c.totalLoop fuel stack total =
      total + ((visited c.kids fuel stack).map fun n => (c.node n).value.length).sum := by
  intro fuel
  induction fuel with
  | zero => intro stack total; rfl
  | succ fuel ih =>
      intro stack total
      cases stack with
      | nil => rfl
      | cons n stack =>
          rw [totalLoop, visited, List.map_cons, List.sum_cons, ← Nat.add_assoc]
          exact ih (c.kids n ++ stack) _

/-- **The total size counts the indices of all nodes.** -/
theorem WF.totalSize (h : WF c live rp pv) : c.totalSize = c.allValuesFlatten.length := by
  have hroot : rootNode ∈ live := h.labelled.rootLive
  have hnd := h.isForest.nodup_visited c.nodes.size [rootNode] (by simpa using hroot)
    (List.pairwise_singleton _ _)
  have htree : (visited c.kids c.nodes.size [rootNode]).toFinset = c.tree := by
    ext n
    rw [List.mem_toFinset, h.isForest.mem_visited_iff (Finset.range c.nodes.size)
      (fun m hm => Finset.mem_range.mpr (h.bound m hm)) hroot (Nat.le_of_eq (Finset.card_range _)),
      under_iff_below (listsKids c), h.mem_tree]
    exact h.labelled.live_iff_below.symm
  have hcard := congrArg Multiset.card h.allValuesFlatten
  unfold RadixCache.totalSize
  rw [totalLoop_eq, Nat.zero_add, ← List.sum_toFinset _ hnd, htree]
  rw [Multiset.coe_card] at hcard
  rw [hcard, sum, CellSum.total]
  exact (map_sum (Multiset.cardHom : Multiset Index →+ Nat)
    (fun n => (c.node n).weigh heldIndices) c.tree).symm

/-! ### The sizes -/

/-- **The counters say how many tokens are evictable and how many are protected.** -/
structure SizesExact (c : RadixCache) : Prop where
  evictable : c.evictableSize = (c.sum evictableTokens : Nat)
  guarded : c.protectedSize = (c.sum protectedTokens : Nat)

theorem sizesExact_new {pageSize : Nat} (hps : 0 < pageSize) (disable : Bool) :
    SizesExact (new pageSize disable) := by
  have htree : (new pageSize disable).tree = {rootNode} := by
    ext n
    rw [(new_wf hps disable).mem_tree, Finset.mem_singleton]
    exact Iff.rfl
  constructor
  · rw [sum, htree, CellSum.total, Finset.sum_singleton]
    rfl
  · rw [sum, htree, CellSum.total, Finset.sum_singleton]
    rfl

theorem SizesExact.cuts (hs : SizesExact c) (hcuts : Cuts c c') (h : WF c live rp pv) :
    SizesExact c' := by
  obtain ⟨hev, he, hp⟩ := Cuts.sum_eq evictableTokens_divides hcuts h
  obtain ⟨hgu, -, -⟩ := Cuts.sum_eq protectedTokens_divides hcuts h
  exact ⟨by rw [he, hev]; exact hs.evictable, by rw [hp, hgu]; exact hs.guarded⟩

theorem SizesExact.insert (hs : SizesExact c) (h : WF c live rp pv) (params : InsertParams) :
    SizesExact (c.insert params).2 := by
  by_cases hd : c.disable = true
  · unfold RadixCache.insert
    rw [if_pos hd]
    exact hs
  · have hd : c.disable = false := by simpa using hd
    obtain ⟨hev, he, hp⟩ := insert_sum evictableTokens_divides h hd params
    obtain ⟨hgu, -, -⟩ := insert_sum protectedTokens_divides h hd params
    simp only [evictableTokens, lt_irrefl, if_false, RadixKey.length_drop] at hev
    simp only [protectedTokens, lt_irrefl, if_false, ite_self, zero_add] at hgu
    refine ⟨?_, by rw [hp, hgu]; exact hs.guarded⟩
    rw [he, hev, hs.evictable]
    split <;> push_cast <;> omega

theorem SizesExact.evicted {freed : List Index} (hs : SizesExact c)
    (he : Evicted c live freed c' live') : SizesExact c' := by
  have hev := he.evictable
  have hsize := he.evictableSize
  have hold := hs.evictable
  refine ⟨?_, by rw [he.protectedSize, he.guarded]; exact hs.guarded⟩
  rw [← hev] at hold
  push_cast at hold
  omega

theorem SizesExact.sameTree (hs : SizesExact c) (h : WF c live rp pv) (hst : SameTree c c')
    (hl : ∀ n, (c'.node n).lockRef = (c.node n).lockRef)
    (he : c'.evictableSize = c.evictableSize) (hp : c'.protectedSize = c.protectedSize) :
    SizesExact c' :=
  ⟨by rw [he, sum_of_sameTree h hst hl]; exact hs.evictable,
    by rw [hp, sum_of_sameTree h hst hl]; exact hs.guarded⟩

/-! ### The sizes and the locks -/

/-- A turn of the lock loops exchanges the weight of its node. -/
theorem sum_lockTurn {M : Type} [AddCommMonoid M] (w : Weight M) (h : WF c live rp pv) {n : NodeId}
    (hn : n ∈ live) (hr : n ≠ rootNode) (evictable guarded : Int) (g : Int → Int) :
    (c.node n).weigh w + ((({ c with
        evictableSize := evictable, protectedSize := guarded }).nodeMut n fun m =>
          { m with lockRef := g m.lockRef }).updateLeafStatus n).sum w =
      w (c.node n).key (c.node n).value (g (c.node n).lockRef) + c.sum w := by
  set c0 : RadixCache := { c with evictableSize := evictable, protectedSize := guarded } with hc0
  set write : TreeNode → TreeNode := fun m => { m with lockRef := g m.lockRef } with hwrite
  have hwf : WF ((c0.nodeMut n write).updateLeafStatus n) live rp pv :=
    lockTurnKeeps_wf n c evictable guarded g h hn hr
  have hself : (c0.nodeMut n write).node n = write (c.node n) :=
    node_nodeMut_self c0 write (h.bound n hn)
  have hother : ∀ m ∈ c.tree, m ≠ n →
      (((c0.nodeMut n write).updateLeafStatus n).node m).weigh w = (c.node m).weigh w := by
    intro m _ hm
    rw [node_updateLeafStatus, node_nodeMut_ne c0 write hm]
    rfl
  unfold sum
  rw [h.tree_eq hwf, CellSum.total_write (h.mem_tree.mpr hn) hother, node_updateLeafStatus, hself]
  rfl

theorem SizesExact.lockTurn (hs : SizesExact c) (h : WF c live rp pv) {n : NodeId} (hn : n ∈ live)
    (hr : n ≠ rootNode) (g : Int → Int) {evictable guarded : Int}
    (hevict : evictable + (if 0 < (c.node n).lockRef then 0 else (c.node n).key.length : Nat) =
      c.evictableSize + (if 0 < g (c.node n).lockRef then 0 else (c.node n).key.length : Nat))
    (hguard : guarded + (if 0 < (c.node n).lockRef then (c.node n).key.length else 0 : Nat) =
      c.protectedSize + (if 0 < g (c.node n).lockRef then (c.node n).key.length else 0 : Nat)) :
    SizesExact ((({ c with evictableSize := evictable, protectedSize := guarded }).nodeMut n
      fun m => { m with lockRef := g m.lockRef }).updateLeafStatus n) := by
  have hev := sum_lockTurn evictableTokens h hn hr evictable guarded g
  have hgu := sum_lockTurn protectedTokens h hn hr evictable guarded g
  have hold := hs.evictable
  have hold' := hs.guarded
  have hev : (if 0 < (c.node n).lockRef then 0 else (c.node n).key.length) + _ =
    (if 0 < g (c.node n).lockRef then 0 else (c.node n).key.length) + _ := hev
  have hgu : (if 0 < (c.node n).lockRef then (c.node n).key.length else 0) + _ =
    (if 0 < g (c.node n).lockRef then (c.node n).key.length else 0) + _ := hgu
  constructor
  · rw [(sizes_updateLeafStatus _ _).1]
    show evictable = _
    omega
  · rw [(sizes_updateLeafStatus _ _).2]
    show guarded = _
    omega

/-- **Locking moves a node's tokens from one counter to the other**, and so does unlocking. -/
theorem SizesExact.incLockRef (hs : SizesExact c) (h : WF c live rp pv) {n : NodeId}
    (hn : n ∈ live) : SizesExact (c.incLockRef n) := by
  unfold RadixCache.incLockRef
  by_cases hd : c.disable = true
  · rw [if_pos hd]
    exact hs
  · rw [if_neg hd]
    refine (climb_induct (P := fun c => WF c live rp pv ∧ SizesExact c) (fun _ h => h.1) ?_ _ n c
      ⟨h, hs⟩ hn).2
    intro n c ⟨h, hs⟩ hn hr
    split
    · rename_i hlock
      refine ⟨lockTurnKeeps_wf n c _ _ (· + 1) h hn hr, hs.lockTurn h hn hr (· + 1) ?_ ?_⟩
      · rw [if_neg (by omega), if_pos (by omega)]
        omega
      · rw [if_neg (by omega), if_pos (by omega)]
        omega
    · rename_i hlock
      have hsame : 0 < (c.node n).lockRef + 1 ↔ 0 < (c.node n).lockRef := by omega
      exact ⟨lockTurnKeeps_wf n c c.evictableSize c.protectedSize (· + 1) h hn hr,
        hs.lockTurn h hn hr (· + 1) (by simp only [hsame]) (by simp only [hsame])⟩

theorem SizesExact.decLockRef (hs : SizesExact c) (h : WF c live rp pv) {n : NodeId}
    (hn : n ∈ live) : SizesExact (c.decLockRef n) := by
  unfold RadixCache.decLockRef
  by_cases hd : c.disable = true
  · rw [if_pos hd]
    exact hs
  · rw [if_neg hd]
    refine (climb_induct (P := fun c => WF c live rp pv ∧ SizesExact c) (fun _ h => h.1) ?_ _ n c
      ⟨h, hs⟩ hn).2
    intro n c ⟨h, hs⟩ hn hr
    split
    · rename_i hlock
      refine ⟨lockTurnKeeps_wf n c _ _ (· - 1) h hn hr, hs.lockTurn h hn hr (· - 1) ?_ ?_⟩
      · rw [if_pos (by omega), if_neg (by omega)]
        omega
      · rw [if_pos (by omega), if_neg (by omega)]
        omega
    · rename_i hlock
      have hsame : 0 < (c.node n).lockRef - 1 ↔ 0 < (c.node n).lockRef := by omega
      exact ⟨lockTurnKeeps_wf n c c.evictableSize c.protectedSize (· - 1) h hn hr,
        hs.lockTurn h hn hr (· - 1) (by simp only [hsame]) (by simp only [hsame])⟩

/-! ### Runs -/

/-- The tree is in order, the evictable leaves are listed, the sizes are right. -/
def Measured (c : RadixCache) : Prop :=
  ∃ live rp pv, WF c live rp pv ∧ LeavesExact c live ∧ SizesExact c

theorem measured_new {pageSize : Nat} (hps : 0 < pageSize) (disable : Bool) :
    Measured (new pageSize disable) := by
  refine ⟨_, _, _, new_wf hps disable, fun n => ?_, sizesExact_new hps disable⟩
  exact iff_of_false (fun hmem => by simp [new] at hmem) fun h => h.2.1 h.1

theorem Measured.insert (hm : Measured c) (params : InsertParams) :
    Measured (c.insert params).2 := by
  obtain ⟨live, rp, pv, h, hl, hs⟩ := hm
  obtain ⟨live', rp', pv', hwf, hmoves⟩ := insert_moves h params
  exact ⟨live', rp', pv', hwf, hmoves.keeps.leaves hl, hs.insert h params⟩

theorem Measured.matchPrefixWith (hm : Measured c) (updateLru : Bool) (key : RadixKey) :
    Measured (c.matchPrefixWith updateLru key).2 := by
  obtain ⟨live, rp, pv, h, hl, hs⟩ := hm
  obtain ⟨live', rp', pv', hwf, hmoves, -⟩ := matchPrefixWith_moves h updateLru key
  exact ⟨live', rp', pv', hwf, hmoves.keeps.leaves hl,
    hs.cuts (matchPrefixWith_cuts h updateLru key) h⟩

theorem Measured.evict (hm : Measured c) (e : EvictionHeap) (numTokens : Nat) :
    Measured (c.evict e numTokens).2 := by
  obtain ⟨live, rp, pv, h, hl, hs⟩ := hm
  obtain ⟨live', -, hwf, hl', hev⟩ := evict_evicted h hl e numTokens
  exact ⟨live', rp, pv, hwf, hl', hs.evicted hev⟩

theorem Measured.incLockRef (hm : Measured c) {n : NodeId} (hn : c.InTree n) :
    Measured (c.incLockRef n) := by
  obtain ⟨live, rp, pv, h, hl, hs⟩ := hm
  have hn := h.inTree_iff.mp hn
  exact ⟨live, rp, pv, incLockRef_wf h hn, incLockRef_leaves h hl hn, hs.incLockRef h hn⟩

theorem Measured.decLockRef (hm : Measured c) {n : NodeId} (hn : c.InTree n) :
    Measured (c.decLockRef n) := by
  obtain ⟨live, rp, pv, h, hl, hs⟩ := hm
  have hn := h.inTree_iff.mp hn
  exact ⟨live, rp, pv, decLockRef_wf h hn, decLockRef_leaves h hl hn, hs.decLockRef h hn⟩

/-- Counting references moves nothing and changes no size. -/
structure CountOnly (c c' : RadixCache) : Prop extends QueueOnly c c' where
  evictableSize : c'.evictableSize = c.evictableSize
  protectedSize : c'.protectedSize = c.protectedSize

theorem CountOnly.refl (c : RadixCache) : CountOnly c c := ⟨QueueOnly.refl c, rfl, rfl⟩

theorem CountOnly.trans {c1 c2 c3 : RadixCache} (h : CountOnly c1 c2) (h' : CountOnly c2 c3) :
    CountOnly c1 c3 :=
  ⟨h.toQueueOnly.trans h'.toQueueOnly, h'.evictableSize.trans h.evictableSize,
    h'.protectedSize.trans h.protectedSize⟩

theorem countOnly_setQueueRef (c : RadixCache) (n : NodeId) (f : Nat → Nat) :
    CountOnly c (c.setQueueRef n f) := ⟨queueOnly_setQueueRef c n f, rfl, rfl⟩

theorem countOnly_incQueueRef (c : RadixCache) (n : NodeId) : CountOnly c (c.incQueueRef n) :=
  climb_rel CountOnly.refl CountOnly.trans (fun n c => countOnly_setQueueRef c n _) _ n c

theorem countOnly_resetAllQueueRefs (c : RadixCache) : CountOnly c c.resetAllQueueRefs :=
  resetLoop_rel CountOnly.refl CountOnly.trans countOnly_setQueueRef _ _ c

theorem Measured.countOnly (hm : Measured c) (hc : CountOnly c c') : Measured c' := by
  obtain ⟨live, rp, pv, h, hl, hs⟩ := hm
  refine ⟨live, rp, pv, h.sameTree hc.toSameTree, fun n => ?_,
    hs.sameTree h hc.toSameTree hc.locks hc.evictableSize hc.protectedSize⟩
  unfold LeafStatus
  rw [hc.leaves, hc.children, hc.locks]
  exact hl n

theorem Reachable.measured {pageSize : Nat} {disable : Bool} (hps : 0 < pageSize)
    (h : Reachable pageSize disable c) : Measured c := by
  induction h with
  | refl => exact measured_new hps disable
  | tail _ hstep ih =>
      cases hstep with
      | insert params => exact ih.insert params
      | matchPrefix key => exact ih.matchPrefixWith true key
      | matchPrefixReadonly key => exact ih.matchPrefixWith false key
      | evict e numTokens => exact ih.evict e numTokens
      | incLockRef n hn => exact ih.incLockRef hn
      | decLockRef n hn => exact ih.decLockRef hn

/-- Every index held belongs to a node that is locked or to one that is not. -/
theorem WF.card_held (h : WF c live rp pv) :
    (c.sum heldIndices).card = c.sum evictableTokens + c.sum protectedTokens := by
  refine (map_sum (Multiset.cardHom : Multiset Index →+ Nat)
    (fun n => (c.node n).weigh heldIndices) c.tree).trans ?_
  unfold sum CellSum.total
  rw [← Finset.sum_add_distrib]
  refine Finset.sum_congr rfl fun n hn => ?_
  have hlen := h.valueLength n (h.mem_tree.mp hn)
  show (c.node n).value.length = _
  unfold TreeNode.weigh evictableTokens protectedTokens
  rw [hlen]
  split <;> omega

/-- The two sizes count all the indices. -/
theorem SizesExact.card_held (hs : SizesExact c) (h : WF c live rp pv) :
    ((c.sum heldIndices).card : Int) = c.evictableSize + c.protectedSize := by
  rw [hs.evictable, hs.guarded, h.card_held, Int.natCast_add]

/-- If a node is not locked, some leaf below it is not either, and it is listed. -/
theorem Balanced.leaves_ne_nil (hb : Balanced c live locks refs) (h : WF c live rp pv) {n : NodeId}
    (hn : n ∈ live) (hlock : (c.node n).lockRef = 0) : c.evictableLeaves ≠ [] := by
  -- queue references play no part in it, so there may as well be none
  have hq := queueOnly_resetAllQueueRefs c
  have hfree := exists_free_leaf (h.sameTree hq.toSameTree)
    (hb.queueOnly hq (counted_resetAllQueueRefs h)) n hn ((hq.locks n).trans hlock) ?_
  · obtain ⟨y, hy, -⟩ := hfree
    rw [hq.leaves] at hy
    exact List.ne_nil_of_mem hy
  · have hzero : ((c.resetAllQueueRefs.node n).queueRefCount : Int) = 0 :=
      resetAllQueueRefs_zero h hn
    omega

theorem Balanced.evictableSize_zero (hb : Balanced c live locks refs) (h : WF c live rp pv)
    (hs : SizesExact c) (hnone : c.evictableLeaves = []) : c.evictableSize = 0 := by
  have hsum : c.sum evictableTokens = 0 := by
    unfold sum CellSum.total
    refine Finset.sum_eq_zero fun n hn => ?_
    have hn := h.mem_tree.mp hn
    have hnonneg := hb.lock_nonneg h hn
    have hlock : (c.node n).lockRef ≠ 0 := fun hz => hb.leaves_ne_nil h hn hz hnone
    show (if 0 < (c.node n).lockRef then 0 else (c.node n).key.length) = 0
    rw [if_pos (by omega)]
  rw [hs.evictable, hsum]
  rfl

/-- The heap holds the evictable leaves, whatever their priorities. -/
abbrev HeapFull {P : Type} (c : RadixCache) (live : Set NodeId) (heap : List (P × NodeId)) : Prop :=
  HeapExact (fun _ _ => ()) c live (heap.map fun x => ((), x.2))

theorem HeapFull.next {P : Type} {x : P × NodeId} {rest : List (P × NodeId)}
    (hwf : WF c live rp pv) (hb : Balanced c live locks refs) (h : HeapFull c live (x :: rest))
    (pr : P) : HeapFull (c.deleteLeaf x.2) (live \ {x.2})
      (if ((c.deleteLeaf x.2).node ((c.deleteLeaf x.2).node x.2).parent).children.entries = [] ∧
          ((c.deleteLeaf x.2).node ((c.deleteLeaf x.2).node x.2).parent).lockRef = 0 then
        (pr, ((c.deleteLeaf x.2).node x.2).parent) :: rest
      else rest) := by
  have hheap : HeapExact (fun _ _ => ()) c live (((), x.2) :: rest.map fun x => ((), x.2)) := h
  have hnext := hheap.next (fun _ _ _ => rfl) hwf hb
  split at hnext
  · rename_i hleaf
    rw [if_pos hleaf]
    exact hnext
  · rename_i hleaf
    rw [if_neg hleaf]
    exact hnext

/-- An eviction ends when it has given enough, or when no leaf is left to take. -/
theorem evictLoop_delivers (e : EvictionHeap)
    (hpop : ∀ c heap, heap ≠ [] → (e.heappop c heap).isSome) (numTokens : Nat) :
    ∀ (fuel : Nat) (c : RadixCache) (live : Set NodeId) (heap : List (e.Priority × NodeId))
      (freed : List Index), WF c live rp pv → Balanced c live locks refs → HeapFull c live heap →
      c.tree.card ≤ fuel →
      numTokens ≤ (evictLoop e numTokens fuel c heap freed).1.length ∨
        ∃ live', WF (evictLoop e numTokens fuel c heap freed).2 live' rp pv ∧
          Balanced (evictLoop e numTokens fuel c heap freed).2 live' locks refs ∧
          (evictLoop e numTokens fuel c heap freed).2.evictableLeaves = [] := by
  intro fuel
  induction fuel with
  | zero =>
      intro c live heap freed h _ _ hcard
      have hempty := Finset.card_eq_zero.mp (Nat.le_zero.mp hcard)
      have hroot := h.mem_tree.mpr h.labelled.rootLive
      exact absurd hroot (by rw [hempty]; exact Finset.notMem_empty _)
  | succ fuel ih =>
      intro c live heap freed h hb hheap hcard
      unfold evictLoop
      by_cases hlt : freed.length < numTokens
      · rw [if_pos hlt]
        cases hx : e.heappop c heap with
        | none =>
            have hnil : heap = [] := by
              by_contra hne
              have := hpop c heap hne
              rw [hx] at this
              exact Bool.noConfusion this
            refine Or.inr ⟨live, h, hb, List.eq_nil_iff_forall_not_mem.mpr fun n hn => ?_⟩
            have hmem := (hheap.mem n).mpr hn
            rw [hnil] at hmem
            simp at hmem
        | some xr =>
            obtain ⟨x, rest⟩ := xr
            have hheap : HeapFull c live (x :: rest) :=
              hheap.perm ((e.pop_perm c heap x rest hx).map _)
            obtain ⟨hxl, hxr, hxk⟩ := hheap.leaf ((), x.2) List.mem_cons_self
            have hwf := deleteLeaf_wf h hxl hxr hxk
            refine ih _ _ _ (freed ++ (c.node x.2).value) hwf
              (hb.keeps (keeps_deleteLeaf h hxl hxr)) (hheap.next h hb _) ?_
            rw [h.tree_erase hwf, Finset.card_erase_of_mem (h.mem_tree.mpr hxl)]
            omega
      · rw [if_neg hlt]
        exact Or.inl (Nat.le_of_not_lt hlt)

/-- No victim is taken once enough has been given. -/
theorem evictedLoop_needed (e : EvictionHeap) (numTokens : Nat) :
    ∀ (fuel : Nat) (c : RadixCache) (heap : List (e.Priority × NodeId)) (freed : List Index),
      ∀ pre x post, evictedLoop e numTokens fuel c heap freed.length = pre ++ x :: post →
      ∃ given, freed.length + given < numTokens ∧
        given = (pre.map fun n => (c.node n).value.length).sum := by
  intro fuel
  induction fuel with
  | zero => intro c heap freed pre x post h; simp [evictedLoop] at h
  | succ fuel ih =>
      intro c heap freed pre x post h
      unfold evictedLoop at h
      by_cases hlt : freed.length < numTokens
      · rw [if_pos hlt] at h
        cases hx : e.heappop c heap with
        | none => rw [hx] at h; simp at h
        | some yr =>
            obtain ⟨⟨p, y⟩, rest⟩ := yr
            rw [hx] at h
            cases pre with
            | nil => exact ⟨0, hlt, rfl⟩
            | cons z pre =>
                simp only [List.cons_append, List.cons.injEq] at h
                obtain ⟨hyz, h⟩ := h
                rw [← List.length_append] at h
                obtain ⟨given, hgiven, hsum⟩ := ih _ _ _ pre x post h
                refine ⟨(c.node y).value.length + given, ?_, ?_⟩
                · rw [List.length_append] at hgiven
                  omega
                · rw [List.map_cons, List.sum_cons, hyz, hsum]
                  simp only [proj_deleteLeaf (·.value) fun _ _ => rfl]
      · rw [if_neg hlt] at h
        simp at h

end RadixCache

namespace HeldCache

open RadixCache

variable {s s' : HeldCache}

/-- No call turns the cache on or off, or changes the page size. -/
theorem Inv.later (h : Inv s) (hs : Step s s') : Later s.cache s'.cache := by
  obtain ⟨live, rp, pv, h, -⟩ := h
  cases hs with
  | insert params => exact later_insert s.cache params
  | matchPrefix key =>
      obtain ⟨_, _, _, hgrow⟩ := Cuts.splitOnly (matchPrefixWith_cuts h true key) h
      exact hgrow.toLater
  | matchPrefixReadonly key =>
      obtain ⟨_, _, _, hgrow⟩ := Cuts.splitOnly (matchPrefixWith_cuts h false key) h
      exact hgrow.toLater
  | incLockRef n hn => exact later_incLockRef s.cache n
  | decLockRef n hn hl => exact later_decLockRef s.cache n
  | incQueueRef n hn =>
      have hq := queueOnly_incQueueRef s.cache n
      exact ⟨hq.size.ge, hq.pageSize, hq.sameDisable⟩
  | resetAllQueueRefs =>
      have hq := queueOnly_resetAllQueueRefs s.cache
      exact ⟨hq.size.ge, hq.pageSize, hq.sameDisable⟩
  | evict e numTokens => exact later_evict s.cache e numTokens

theorem run_later {pageSize : Nat} (hps : 0 < pageSize) {disable : Bool}
    (hrun : Relation.ReflTransGen Step (new pageSize disable) s) :
    Later (RadixCache.new pageSize disable) s.cache := by
  induction hrun with
  | refl => exact Later.refl _
  | tail hrun hstep ih => exact ih.trans ((run_inv hps hrun).later hstep)

theorem run_measured {pageSize : Nat} (hps : 0 < pageSize) {disable : Bool}
    (hrun : Relation.ReflTransGen Step (new pageSize disable) s) : Measured s.cache := by
  induction hrun with
  | refl => exact measured_new hps disable
  | tail _ hstep ih =>
      cases hstep with
      | insert params => exact ih.insert params
      | matchPrefix key => exact ih.matchPrefixWith true key
      | matchPrefixReadonly key => exact ih.matchPrefixWith false key
      | incLockRef n hn => exact ih.incLockRef hn
      | decLockRef n hn hl => exact ih.decLockRef hn
      | incQueueRef n hn => exact ih.countOnly (countOnly_incQueueRef _ n)
      | resetAllQueueRefs => exact ih.countOnly (countOnly_resetAllQueueRefs _)
      | evict e numTokens => exact ih.evict e numTokens

/-- An eviction gives what it is asked for, or leaves nothing evictable. -/
theorem Inv.evict_yield (h : Inv s) (hm : Measured s.cache) (hd : s.cache.disable = false)
    (e : EvictionHeap) (hpop : ∀ c heap, heap ≠ [] → (e.heappop c heap).isSome)
    (numTokens : Nat) :
    numTokens ≤ (s.cache.evict e numTokens).1.length ∨
      (s.cache.evict e numTokens).2.evictableSize = 0 := by
  obtain ⟨live, rp, pv, h, hb⟩ := h
  obtain ⟨refs, hb⟩ := hb hd
  have hd' : ¬ s.cache.disable = true := by rw [hd]; exact Bool.false_ne_true
  obtain ⟨_, _, _, -, -, hs⟩ := hm.evict e numTokens
  have hfull : HeapFull s.cache live
      (s.cache.evictableLeaves.map fun n => (e.getPriority s.cache n, n)) := by
    have hstart : HeapExact (fun _ _ => ()) s.cache live
        (s.cache.evictableLeaves.map fun n => ((), n)) := heapExact_start h
    unfold HeapFull
    rw [List.map_map]
    exact hstart
  have hcard : s.cache.tree.card ≤ s.cache.nodes.size := by
    have hsubset : s.cache.tree ⊆ Finset.range s.cache.nodes.size := fun n hn =>
      Finset.mem_range.mpr (h.bound n (h.mem_tree.mp hn))
    exact (Finset.card_le_card hsubset).trans (Nat.le_of_eq (Finset.card_range _))
  have hend := evictLoop_delivers e hpop numTokens s.cache.nodes.size s.cache live _ [] h hb
    hfull hcard
  unfold evict at hs ⊢
  rw [if_neg hd'] at hs ⊢
  refine hend.imp id fun hend => ?_
  obtain ⟨live2, hwf2, hb2, hnone⟩ := hend
  exact hb2.evictableSize_zero hwf2 hs hnone

/--
**An eviction gives what it is asked for, and no more than it must.**  In every run, with any
priorities and any heap that gives an item as long as it has one, an eviction of `numTokens`
tokens hands out at least that many indices unless nothing evictable is left; the evictable size
falls by what is handed out and the protected size stays; what is handed out and what is left in
the tree are the indices that were in it; no locked node leaves the tree; and no node is taken
once enough has been handed out.
-/
theorem evict_delivers {pageSize : Nat} (hps : 0 < pageSize)
    (hrun : Relation.ReflTransGen Step (new pageSize false) s) (e : EvictionHeap)
    (hpop : ∀ c heap, heap ≠ [] → (e.heappop c heap).isSome) (numTokens : Nat) :
    (numTokens ≤ (s.cache.evict e numTokens).1.length ∨
      (s.cache.evict e numTokens).2.evictableSize = 0) ∧
    (s.cache.evict e numTokens).2.evictableSize + (s.cache.evict e numTokens).1.length =
      s.cache.evictableSize ∧
    (s.cache.evict e numTokens).2.protectedSize = s.cache.protectedSize ∧
    ((s.cache.evict e numTokens).1 ++ (s.cache.evict e numTokens).2.allValuesFlatten).Perm
      s.cache.allValuesFlatten ∧
    (∀ n, s.cache.InTree n → 0 < (s.cache.node n).lockRef →
      (s.cache.evict e numTokens).2.InTree n) ∧
    ∀ pre x post, s.cache.evicted e numTokens = pre ++ x :: post →
      (pre.map fun n => (s.cache.node n).value.length).sum < numTokens := by
  obtain ⟨live, rp, pv, h, hb⟩ := run_inv hps hrun
  have hd : s.cache.disable = false := (run_later hps hrun).disable
  obtain ⟨refs, hb⟩ := hb hd
  have hd' : ¬ s.cache.disable = true := by rw [hd]; exact Bool.false_ne_true
  obtain ⟨live', hsub, hwf, -, hev⟩ := evict_evicted h hb.leaves e numTokens
  refine ⟨(run_inv hps hrun).evict_yield (run_measured hps hrun) hd e hpop numTokens,
    hev.evictableSize, hev.protectedSize, ?_, ?_, ?_⟩
  · rw [← Multiset.coe_eq_coe, ← Multiset.coe_add, hwf.allValuesFlatten, h.allValuesFlatten]
    exact hev.indices
  · intro n hn hlock
    exact hwf.inTree_iff.mpr (hev.locked n (h.inTree_iff.mp hn) hlock)
  · intro pre x post hx
    unfold evicted at hx
    rw [if_neg hd'] at hx
    obtain ⟨given, hlt, hsum⟩ := evictedLoop_needed e numTokens _ _ _ [] pre x post hx
    rw [← hsum]
    simpa using hlt

/-- Asked for three of the four tokens of two prompts, it takes both of them. -/
theorem evict_delivers_two :
    (3 ≤ (twoPrompts.cache.evict (HeapQ.sorted.evictionHeap
        (queueAwareEvictionPriority fun refs depth => refs * depth)) 3).1.length ∨
      (twoPrompts.cache.evict (HeapQ.sorted.evictionHeap
        (queueAwareEvictionPriority fun refs depth => refs * depth)) 3).2.evictableSize = 0) ∧
    (twoPrompts.cache.evict (HeapQ.sorted.evictionHeap
      (queueAwareEvictionPriority fun refs depth => refs * depth)) 3).1 = [3, 4, 1, 2] :=
  ⟨(evict_delivers Nat.one_pos twoPrompts_run (HeapQ.sorted.evictionHeap
    (queueAwareEvictionPriority fun refs depth => refs * depth)) HeapQ.sorted.pop_some 3).1,
    by decide⟩

end HeldCache

end Peek

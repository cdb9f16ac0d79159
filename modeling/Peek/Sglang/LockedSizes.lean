/-
What locks do to the evictable size.

A lock takes the tokens of the path it protects out of what can be evicted, and nothing else
changes; so the evictable size is known from which nodes are locked, and falls with every lock
that is added.  A lock that is taken and given back leaves it as it was.
-/
import Peek.Sglang.Sizes
import Mathlib.Algebra.Order.BigOperators.Group.Finset

namespace Peek

open Radix ParentChain

namespace RadixCache

variable {c c' : RadixCache} {live : Set NodeId} {rp : NodeId → List ChildKey}
  {pv : NodeId → List Index} {locks locks' refs refs' : List NodeId}

/-- The same nodes in the same tree; only counts, times and sizes may differ. -/
structure SameShape (c c' : RadixCache) : Prop extends Later c c' where
  nodes : c'.nodes.size = c.nodes.size
  key : ∀ n, (c'.node n).key = (c.node n).key
  value : ∀ n, (c'.node n).value = (c.node n).value
  parent : ∀ n, c'.parentOf n = c.parentOf n
  children : ∀ n, (c'.node n).children = (c.node n).children

theorem SameShape.trans {c1 c2 c3 : RadixCache} (h : SameShape c1 c2) (h' : SameShape c2 c3) :
    SameShape c1 c3 :=
  ⟨h.toLater.trans h'.toLater, h'.nodes.trans h.nodes, fun n => (h'.key n).trans (h.key n),
    fun n => (h'.value n).trans (h.value n), fun n => (h'.parent n).trans (h.parent n),
    fun n => (h'.children n).trans (h.children n)⟩

theorem SameShape.symm (h : SameShape c c') : SameShape c' c :=
  ⟨⟨h.nodes.le, h.pageSize.symm, h.disable.symm⟩, h.nodes.symm, fun n => (h.key n).symm,
    fun n => (h.value n).symm, fun n => (h.parent n).symm, fun n => (h.children n).symm⟩

theorem SameShape.inTree_iff (h : SameShape c c') (n : NodeId) : c'.InTree n ↔ c.InTree n := by
  have hheap : c'.heap = c.heap := by
    unfold heap
    simp only [h.key, h.children, h.pageSize]
    congr 1
    exact funext h.parent
  unfold InTree
  rw [hheap]

theorem SameShape.tree_eq (h : SameShape c c') : c'.tree = c.tree := by
  classical
  unfold tree
  rw [h.nodes]
  exact Finset.filter_congr fun n _ => h.inTree_iff n

/-- Of a node, locking changes the lock count only. -/
theorem proj_lockRef {β : Type} (p : TreeNode → β)
    (hp : ∀ (n : TreeNode) (lock : Int), p { n with lockRef := lock } = p n) (c : RadixCache)
    (n : NodeId) :
    (∀ m, p ((c.incLockRef n).node m) = p (c.node m)) ∧
      ∀ m, p ((c.decLockRef n).node m) = p (c.node m) := by
  refine lock_rel (R := fun c c' => ∀ m, p (c'.node m) = p (c.node m)) (fun _ _ => rfl)
    (fun h h' m => (h' m).trans (h m)) (fun c n b _ evictable guarded g m => ?_) c n
  rw [node_updateLeafStatus]
  refine (proj_nodeMut p _ n (fun m => { m with lockRef := g m.lockRef })
    (fun m => hp m (g m.lockRef)) m).trans ?_
  split <;> rfl

theorem size_lockRef (c : RadixCache) (n : NodeId) :
    (c.incLockRef n).nodes.size = c.nodes.size ∧ (c.decLockRef n).nodes.size = c.nodes.size := by
  refine lock_rel (R := fun c c' => c'.nodes.size = c.nodes.size) (fun _ => rfl)
    (fun h h' => h'.trans h) (fun c n b _ evictable guarded g => ?_) c n
  rw [size_updateLeafStatus, size_nodeMut]
  split <;> rfl

/-- Locking moves no token. -/
theorem sameShape_incLockRef (c : RadixCache) (n : NodeId) : SameShape c (c.incLockRef n) :=
  ⟨later_incLockRef c n, (size_lockRef c n).1, (proj_lockRef (·.key) (fun _ _ => rfl) c n).1,
    (proj_lockRef (·.value) (fun _ _ => rfl) c n).1,
    (proj_lockRef (·.parent) (fun _ _ => rfl) c n).1,
    (proj_lockRef (·.children) (fun _ _ => rfl) c n).1⟩

theorem sameShape_decLockRef (c : RadixCache) (n : NodeId) : SameShape c (c.decLockRef n) :=
  ⟨later_decLockRef c n, (size_lockRef c n).2, (proj_lockRef (·.key) (fun _ _ => rfl) c n).2,
    (proj_lockRef (·.value) (fun _ _ => rfl) c n).2,
    (proj_lockRef (·.parent) (fun _ _ => rfl) c n).2,
    (proj_lockRef (·.children) (fun _ _ => rfl) c n).2⟩

/-! ### A cache and its locks -/

/-- A cache, the locks taken on it, and sizes that are right. -/
structure Held (c : RadixCache) (locks : List NodeId) : Prop where
  held : HeldCache.Inv ⟨c, locks⟩
  measured : Measured c

section

variable (hk : Held c locks)
include hk

theorem Held.wf : ∃ live rp pv, WF c live rp pv := by
  obtain ⟨live, rp, pv, h, -⟩ := hk.held
  exact ⟨live, rp, pv, h⟩

theorem Held.matchPrefixWith (updateLru : Bool) (key : RadixKey) :
    Held (c.matchPrefixWith updateLru key).2 locks := by
  refine ⟨?_, hk.measured.matchPrefixWith updateLru key⟩
  cases updateLru with
  | true => exact hk.held.step (HeldCache.Step.matchPrefix ⟨c, locks⟩ key)
  | false => exact hk.held.step (HeldCache.Step.matchPrefixReadonly ⟨c, locks⟩ key)

theorem Held.insert (params : InsertParams) : Held (c.insert params).2 locks :=
  ⟨hk.held.step (HeldCache.Step.insert ⟨c, locks⟩ params), hk.measured.insert params⟩

theorem Held.incLockRef {n : NodeId} (hn : c.InTree n) : Held (c.incLockRef n) (n :: locks) :=
  ⟨hk.held.step (HeldCache.Step.incLockRef ⟨c, locks⟩ n hn), hk.measured.incLockRef hn⟩

theorem Held.decLockRef {n : NodeId} (hn : c.InTree n) (hl : n ∈ locks) :
    Held (c.decLockRef n) (locks.erase n) :=
  ⟨hk.held.step (HeldCache.Step.decLockRef ⟨c, locks⟩ n hn hl), hk.measured.decLockRef hn⟩

theorem Held.evict (e : EvictionHeap) (numTokens : Nat) : Held (c.evict e numTokens).2 locks :=
  ⟨hk.held.step (HeldCache.Step.evict ⟨c, locks⟩ e numTokens), hk.measured.evict e numTokens⟩

theorem Held.perm (hp : locks.Perm locks') : Held c locks' := by
  obtain ⟨live, rp, pv, h, hb⟩ := hk.held
  refine ⟨⟨live, rp, pv, h, fun hd => ?_⟩, hk.measured⟩
  obtain ⟨refs, hb⟩ := hb hd
  refine ⟨refs, hb.chained, ⟨fun e he => hb.locks.bound e (hp.mem_iff.mpr he), fun n hn hr => ?_⟩,
    hb.refs, hb.leaves⟩
  rw [hb.locks.count n hn hr, passing_perm c hp]

/-- What is locked has a lock. -/
theorem Held.lock_pos (hd : c.disable = false) {n : NodeId} (hn : c.InTree n) (hl : n ∈ locks)
    (hr : n ≠ rootNode) : 0 < (c.node n).lockRef := by
  obtain ⟨live, rp, pv, h, hb⟩ := hk.held
  obtain ⟨refs, hb⟩ := hb hd
  have hcount : (c.node n).lockRef = c.passing locks n := hb.locks.count n (h.inTree_iff.mp hn) hr
  have hpos : 0 < c.passing locks n := by
    refine List.countP_pos_iff.mpr ⟨n, hl, ?_⟩
    rw [decide_eq_true_eq, hb.chained.mem_chain_iff (hb.locks.bound n hl)]
    exact ParentChain.Passes.here hr
  rw [hcount]
  exact Int.natCast_pos.mpr hpos

/-- What is locked is not evicted. -/
theorem Held.inTree_evict (e : EvictionHeap) (numTokens : Nat) {n : NodeId} (hn : c.InTree n)
    (hl : n ∈ locks) : (c.evict e numTokens).2.InTree n := by
  by_cases hd : c.disable = true
  · unfold RadixCache.evict
    rw [if_pos hd]
    exact hn
  · have hdf : c.disable = false := by simpa using hd
    obtain ⟨live, rp, pv, h, hb⟩ := id hk.held
    obtain ⟨refs, hb⟩ := hb hdf
    obtain ⟨live', -, hwf, -, hev⟩ := evict_evicted h hb.leaves e numTokens
    refine hwf.inTree_iff.mpr ?_
    by_cases hr : n = rootNode
    · rw [hr]
      exact hwf.labelled.rootLive
    · exact hev.locked n (h.inTree_iff.mp hn) (hk.lock_pos hdf hn hl hr)

/-- **More locks, less to evict.** -/
theorem Held.evictableSize_le (hk' : Held c' locks') (hs : SameShape c c')
    (hd : c.disable = false) (hsub : locks ⊆ locks') : c'.evictableSize ≤ c.evictableSize := by
  obtain ⟨live, rp, pv, h, hb⟩ := hk.held
  obtain ⟨live', rp', pv', h', hb'⟩ := hk'.held
  obtain ⟨refs, hb⟩ := hb hd
  obtain ⟨refs', hb'⟩ := hb' (hs.disable.trans hd)
  obtain ⟨_, _, _, -, -, hm⟩ := hk.measured
  obtain ⟨_, _, _, -, -, hm'⟩ := hk'.measured
  rw [hm.evictable, hm'.evictable, Int.ofNat_le]
  unfold sum CellSum.total
  rw [hs.tree_eq]
  refine Finset.sum_le_sum fun n hn => ?_
  have hn := h.mem_tree.mp hn
  have hn' := h'.inTree_iff.mp ((hs.inTree_iff n).mpr (h.inTree_iff.mpr hn))
  show (if 0 < (c'.node n).lockRef then 0 else (c'.node n).key.length) ≤
    if 0 < (c.node n).lockRef then 0 else (c.node n).key.length
  rw [hs.key]
  by_cases hlock : 0 < (c.node n).lockRef
  · rw [if_pos hlock]
    by_cases hr : n = rootNode
    · have hkey : (c.node n).key.length = 0 := by
        rw [hr]
        unfold RadixKey.length
        rw [h.root_empty.1]
        rfl
      rw [hkey, ite_self]
    · -- a climb of a lock of the one passes it, and so does one of the other
      have hc : (c.node n).lockRef = c.passing locks n := hb.locks.count n hn hr
      have hc' : (c'.node n).lockRef = c'.passing locks' n := hb'.locks.count n hn' hr
      rw [hc] at hlock
      rw [passing_of_parentOf (funext hs.parent) hs.nodes] at hc'
      obtain ⟨e, he, hpass⟩ := List.countP_pos_iff.mp (Int.natCast_pos.mp hlock)
      have hlock' : 0 < (c'.node n).lockRef := by
        rw [hc']
        exact Int.natCast_pos.mpr (List.countP_pos_iff.mpr ⟨e, hsub he, hpass⟩)
      rw [if_pos hlock']
  · rw [if_neg hlock]
    split
    · exact Nat.zero_le _
    · exact Nat.le_refl _

/-- The same locks, as much to evict. -/
theorem Held.evictableSize_eq (hk' : Held c' locks') (hs : SameShape c c')
    (hd : c.disable = false) (hp : locks.Perm locks') : c'.evictableSize = c.evictableSize :=
  Int.le_antisymm (hk.evictableSize_le hk' hs hd hp.subset)
    (hk'.evictableSize_le hk hs.symm (hs.disable.trans hd) hp.symm.subset)

/-- A match only cuts nodes in two, which evictable or not stay what they are. -/
theorem Held.evictableSize_matchPrefixWith (updateLru : Bool) (key : RadixKey) :
    (c.matchPrefixWith updateLru key).2.evictableSize = c.evictableSize := by
  obtain ⟨live, rp, pv, h⟩ := hk.wf
  exact (Cuts.sum_eq evictableTokens_divides (matchPrefixWith_cuts h updateLru key) h).2.1

/-- A lock that is given back leaves everything as it was. -/
theorem Held.lockBack {n : NodeId} (hn : c.InTree n) :
    Held ((c.incLockRef n).decLockRef n) locks ∧
      SameShape c ((c.incLockRef n).decLockRef n) ∧
      ((c.incLockRef n).decLockRef n).evictableSize = c.evictableSize := by
  have hs1 := sameShape_incLockRef c n
  have hs := hs1.trans (sameShape_decLockRef (c.incLockRef n) n)
  have hk' := (hk.incLockRef hn).decLockRef ((hs1.inTree_iff n).mpr hn) List.mem_cons_self
  rw [List.erase_cons_head] at hk'
  refine ⟨hk', hs, ?_⟩
  by_cases hd : c.disable = true
  · unfold RadixCache.decLockRef RadixCache.incLockRef
    rw [if_pos hd, if_pos hd]
  · exact hk.evictableSize_eq hk' hs (by simpa using hd) (List.Perm.refl _)

/-- Of two locks one is given back, and one stays. -/
theorem Held.lockTwice {n : NodeId} (hn : c.InTree n) :
    Held (((c.incLockRef n).incLockRef n).decLockRef n) (n :: locks) ∧
      SameShape c (((c.incLockRef n).incLockRef n).decLockRef n) ∧
      (((c.incLockRef n).incLockRef n).decLockRef n).evictableSize =
        (c.incLockRef n).evictableSize := by
  have hs := sameShape_incLockRef c n
  obtain ⟨hk', hs', he⟩ := (hk.incLockRef hn).lockBack ((hs.inTree_iff n).mpr hn)
  exact ⟨hk', hs.trans hs', he⟩

end

end RadixCache

end Peek

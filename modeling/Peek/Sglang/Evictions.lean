/-
Which leaf an eviction takes.

`evicted` lists the nodes the eviction loop deletes; before each of them the cache is the
one the deletions before it left (`evictLoop_eq`).  With the balanced locks of `Balanced` the
heap holds the evictable leaves of that moment, no more and no fewer, and with the priorities
they have at that moment, as long as deleting one node does not change the priority of
another.  So each victim has the least priority of all leaves that could have been taken
instead (`evicted_least`), and this is what an eviction strategy can count on.
-/
import Peek.Sglang.Counting
import Mathlib.Data.List.Sort

namespace Peek

open Radix

namespace RadixCache

/-! ### The heap -/

section

variable {P : Type} [LinearOrder P]

/-- `x` comes out before `y`: nodes are compared by last access where priorities tie. -/
def itemLe (c : RadixCache) (x y : P × NodeId) : Prop :=
  x.1 < y.1 ∨ x.1 = y.1 ∧ (c.node x.2).lastAccessTime ≤ (c.node y.2).lastAccessTime

instance (c : RadixCache) (x y : P × NodeId) : Decidable (itemLe c x y) :=
  inferInstanceAs (Decidable (_ ∨ _))

theorem itemLe_total (c : RadixCache) (x y : P × NodeId) : itemLe c x y ∨ itemLe c y x := by
  unfold itemLe
  rcases lt_trichotomy x.1 y.1 with hlt | heq | hgt
  · exact Or.inl (Or.inl hlt)
  · rcases Nat.le_total (c.node x.2).lastAccessTime (c.node y.2).lastAccessTime with hle | hle
    · exact Or.inl (Or.inr ⟨heq, hle⟩)
    · exact Or.inr (Or.inr ⟨heq.symm, hle⟩)
  · exact Or.inr (Or.inl hgt)

theorem itemLe_trans (c : RadixCache) {x y z : P × NodeId} (h : itemLe c x y)
    (h' : itemLe c y z) : itemLe c x z := by
  unfold itemLe at *
  rcases h with hxy | ⟨hxy, hle⟩
  · rcases h' with hyz | ⟨hyz, -⟩
    · exact Or.inl (hxy.trans hyz)
    · exact Or.inl (hyz ▸ hxy)
  · rcases h' with hyz | ⟨hyz, hle'⟩
    · exact Or.inl (hxy ▸ hyz)
    · exact Or.inr ⟨hxy.trans hyz, hle.trans hle'⟩

end

/--
`heapq`.  Which of several least items `heappop` takes depends on how the heap came about,
and is left open.
-/
structure HeapQ (P : Type) [LinearOrder P] where
  heappop : RadixCache → List (P × NodeId) → Option ((P × NodeId) × List (P × NodeId))
  pop_perm : ∀ c heap x rest, heappop c heap = some (x, rest) → heap.Perm (x :: rest)
  pop_least : ∀ c heap x rest, heappop c heap = some (x, rest) → ∀ y ∈ rest, itemLe c x y
  pop_some : ∀ c heap, heap ≠ [] → (heappop c heap).isSome

namespace HeapQ

variable {P : Type} [LinearOrder P]

/-- A heap kept sorted. -/
def sortedPop (c : RadixCache) (heap : List (P × NodeId)) :
    Option ((P × NodeId) × List (P × NodeId)) :=
  match heap.insertionSort (itemLe c) with
  | [] => none
  | x :: rest => some (x, rest)

theorem sortedPop_eq_some {c : RadixCache} {heap rest : List (P × NodeId)} {x : P × NodeId}
    (h : sortedPop c heap = some (x, rest)) : heap.insertionSort (itemLe c) = x :: rest := by
  unfold sortedPop at h
  cases hsort : heap.insertionSort (itemLe c) with
  | nil => rw [hsort] at h; simp at h
  | cons y ys =>
      rw [hsort] at h
      simp only [Option.some.injEq, Prod.mk.injEq] at h
      rw [h.1, h.2]

/-- Of several least items, the one that was put in last. -/
def sorted : HeapQ P where
  heappop := sortedPop
  pop_perm c heap x rest h := by
    have hperm := List.perm_insertionSort (itemLe c) heap
    rw [sortedPop_eq_some h] at hperm
    exact hperm.symm
  pop_least c heap x rest h := by
    have : Std.Total (itemLe (P := P) c) := ⟨itemLe_total c⟩
    have : IsTrans (P × NodeId) (itemLe c) := ⟨fun _ _ _ => itemLe_trans c⟩
    have hsorted := List.pairwise_insertionSort (itemLe c) heap
    rw [sortedPop_eq_some h, List.pairwise_cons] at hsorted
    exact hsorted.1
  pop_some c heap h := by
    cases hsort : heap.insertionSort (itemLe c) with
    | nil =>
        have hlen := List.length_insertionSort (itemLe c) heap
        rw [hsort] at hlen
        exact absurd (List.length_eq_zero_iff.mp hlen.symm) h
    | cons y ys =>
        unfold sortedPop
        rw [hsort]
        rfl

/-- The heap, filled by a strategy's `get_priority`. -/
abbrev evictionHeap (q : HeapQ P) (getPriority : RadixCache → NodeId → P) : EvictionHeap where
  Priority := P
  getPriority := getPriority
  heappop := q.heappop
  pop_perm := q.pop_perm

end HeapQ

/-! ### The victims -/

/-- The nodes `evictLoop` deletes, in this order; `numFreed` indices were freed before. -/
def evictedLoop (h : EvictionHeap) (numTokens : Nat) :
    Nat → RadixCache → List (h.Priority × NodeId) → Nat → List NodeId
  | 0, _, _, _ => []
  | fuel + 1, c, heap, numFreed =>
      if numFreed < numTokens then
        match h.heappop c heap with
        | none => []
        | some ((_, x), heap) =>
            let numFreed := numFreed + (c.node x).value.length
            let c := c.deleteLeaf x
            let parent := (c.node x).parent
            let heap :=
              if (c.node parent).children.entries = [] ∧ (c.node parent).lockRef = 0 then
                (h.getPriority c parent, parent) :: heap
              else heap
            x :: evictedLoop h numTokens fuel c heap numFreed
      else []

/-- The nodes `evict` deletes, in this order. -/
def evicted (c : RadixCache) (h : EvictionHeap) (numTokens : Nat) : List NodeId :=
  if c.disable then []
  else
    evictedLoop h numTokens c.nodes.size c
      (c.evictableLeaves.map fun n => (h.getPriority c n, n)) 0

/-- The cache after these deletions. -/
def afterDeleting (c : RadixCache) (victims : List NodeId) : RadixCache :=
  victims.foldl deleteLeaf c

/-- What is read of a node, its children aside, outlives the deletion of any node. -/
theorem proj_deleteLeaf {β : Type} (p : TreeNode → β)
    (hp : ∀ (k : ChildKey) (q : TreeNode), p { q with children := q.children.erase k } = p q)
    (c : RadixCache) (n m : NodeId) : p ((c.deleteLeaf n).node m) = p (c.node m) := by
  unfold deleteLeaf
  rw [node_updateLeafStatus]
  exact proj_nodeMut p c _ _ (hp _) m

theorem evictLoop_eq (h : EvictionHeap) (numTokens : Nat) :
    ∀ (fuel : Nat) (c : RadixCache) (heap : List (h.Priority × NodeId)) (freed : List Index),
      (evictLoop h numTokens fuel c heap freed).2 =
        c.afterDeleting (evictedLoop h numTokens fuel c heap freed.length) := by
  intro fuel
  induction fuel with
  | zero => intro c heap freed; rfl
  | succ fuel ih =>
      intro c heap freed
      unfold evictLoop evictedLoop
      by_cases hlt : freed.length < numTokens
      · rw [if_pos hlt, if_pos hlt]
        cases h.heappop c heap with
        | none => rfl
        | some xr =>
            simp only
            rw [ih, List.length_append]
            rfl
      · rw [if_neg hlt, if_neg hlt]
        rfl

/-- **An eviction is the deletion of its victims**, one after the other. -/
theorem evict_eq (c : RadixCache) (h : EvictionHeap) (numTokens : Nat) :
    (c.evict h numTokens).2 = c.afterDeleting (c.evicted h numTokens) := by
  unfold evict evicted
  by_cases hd : c.disable = true
  · rw [if_pos hd, if_pos hd]
    rfl
  · rw [if_neg hd, if_neg hd]
    exact evictLoop_eq h numTokens _ c _ []

/-! ### The heap holds the evictable leaves -/

variable {c c' : RadixCache} {live live' : Set NodeId} {rp : NodeId → List ChildKey}
  {pv : NodeId → List Index} {locks refs : List NodeId}

/-- The counts are those of the climbs not taken back, and the leaves are listed. -/
structure Balanced (c : RadixCache) (live : Set NodeId) (locks refs : List NodeId) : Prop where
  chained : Chained c
  locks : Counted .lock c live locks
  refs : Counted .queue c live refs
  leaves : LeavesExact c live

theorem Balanced.keeps (h : Balanced c live locks refs) (hk : Keeps c live c' live') :
    Balanced c' live' locks refs where
  chained := hk.chained h.chained
  locks := hk.counted h.chained _ _ h.locks
  refs := hk.counted h.chained _ _ h.refs
  leaves := hk.leaves h.leaves

theorem Balanced.lock_nonneg (h : Balanced c live locks refs) (hwf : WF c live rp pv) {n : NodeId}
    (hn : n ∈ live) : 0 ≤ (c.node n).lockRef := by
  by_cases hr : n = rootNode
  · rw [hr]
    exact Int.le_of_lt hwf.rootLock
  · exact h.locks.nonneg hn hr

/-- A node of the tree is listed just when it is a leaf that nobody has locked. -/
theorem Balanced.mem_leaves_iff (h : Balanced c live locks refs) (hwf : WF c live rp pv)
    {n : NodeId} (hn : n ∈ live) : n ∈ c.evictableLeaves ↔
      (c.node n).children.entries = [] ∧ (c.node n).lockRef = 0 := by
  have hlisted : n ∈ c.evictableLeaves ↔ n ∈ live ∧ n ≠ rootNode ∧
      (c.node n).children.entries = [] ∧ (c.node n).lockRef ≤ 0 := h.leaves n
  have hnonneg := h.lock_nonneg hwf hn
  rw [hlisted]
  constructor
  · intro hleaf
    exact ⟨hleaf.2.2.1, Int.le_antisymm hleaf.2.2.2 hnonneg⟩
  · intro hleaf
    refine ⟨hn, fun hr => ?_, hleaf.1, Int.le_of_eq hleaf.2⟩
    have hlock := hwf.rootLock
    rw [← hr, hleaf.2] at hlock
    exact Int.lt_irrefl _ hlock

/-- A deletion takes the node off the list, and can put on it no node but the parent. -/
theorem LeavesExact.mem_deleteLeaf_iff (h : LeavesExact c live) {x : NodeId}
    (h' : LeavesExact (c.deleteLeaf x) (live \ {x})) {n : NodeId} (hn : n ≠ (c.node x).parent) :
    n ∈ (c.deleteLeaf x).evictableLeaves ↔ n ∈ c.evictableLeaves ∧ n ≠ x := by
  have hnew : n ∈ (c.deleteLeaf x).evictableLeaves ↔ n ∈ live \ {x} ∧ n ≠ rootNode ∧
      ((c.deleteLeaf x).node n).children.entries = [] ∧
      ((c.deleteLeaf x).node n).lockRef ≤ 0 := h' n
  have hold : n ∈ c.evictableLeaves ↔ n ∈ live ∧ n ≠ rootNode ∧
      (c.node n).children.entries = [] ∧ (c.node n).lockRef ≤ 0 := h n
  have hdiff : n ∈ live \ {x} ↔ n ∈ live ∧ n ≠ x := Iff.rfl
  rw [hnew, node_deleteLeaf_ne c hn, hdiff, and_right_comm, ← hold]

section

variable {P : Type} {getPriority : RadixCache → NodeId → P}

/-- The heap holds the evictable leaves, with their priorities. -/
structure HeapExact (getPriority : RadixCache → NodeId → P) (c : RadixCache) (live : Set NodeId)
    (heap : List (P × NodeId)) : Prop extends HeapOk c live heap where
  mem : ∀ n, n ∈ heap.map (·.2) ↔ n ∈ c.evictableLeaves
  priority : ∀ x ∈ heap, x.1 = getPriority c x.2

theorem HeapExact.perm {heap heap' : List (P × NodeId)} (h : HeapExact getPriority c live heap)
    (hp : heap.Perm heap') : HeapExact getPriority c live heap' where
  toHeapOk := h.toHeapOk.perm hp
  mem n := by rw [← h.mem n, (hp.map _).mem_iff]
  priority x hx := h.priority x (hp.mem_iff.mpr hx)

/-- The heap the eviction starts with. -/
theorem heapExact_start (hwf : WF c live rp pv) :
    HeapExact getPriority c live (c.evictableLeaves.map fun n => (getPriority c n, n)) := by
  refine ⟨heapOk_start hwf _, fun n => ?_, fun x hx => ?_⟩
  · rw [List.map_map]
    exact Iff.of_eq (congrArg (n ∈ ·) (List.map_id c.evictableLeaves))
  · obtain ⟨n, -, rfl⟩ := List.mem_map.mp hx
    rfl

/-- A node with a child is in no heap. -/
theorem HeapOk.parent_notMem {heap : List (P × NodeId)} (h : HeapOk c live heap)
    (hwf : WF c live rp pv) {x : NodeId} (hx : x ∈ live) (hxr : x ≠ rootNode) :
    (c.node x).parent ∉ heap.map (·.2) := by
  intro hmem
  obtain ⟨y, hy, hyp⟩ := List.mem_map.mp hmem
  obtain ⟨-, -, hyk⟩ := h.leaf y hy
  obtain ⟨a, -, -, hk⟩ := hwf.labelled.up hx hxr
  rw [heap_kid, heap_parent, ← hyp, Map.entries_eq_nil_iff.mp hyk] at hk
  simp at hk

/-- The heap the eviction goes on with. -/
theorem HeapExact.next (hstable : ∀ c n m, getPriority (deleteLeaf c n) m = getPriority c m)
    (hwf : WF c live rp pv) (hb : Balanced c live locks refs) {x : P × NodeId}
    {rest : List (P × NodeId)} (h : HeapExact getPriority c live (x :: rest)) :
    HeapExact getPriority (c.deleteLeaf x.2) (live \ {x.2})
      (if ((c.deleteLeaf x.2).node ((c.deleteLeaf x.2).node x.2).parent).children.entries = [] ∧
          ((c.deleteLeaf x.2).node ((c.deleteLeaf x.2).node x.2).parent).lockRef = 0 then
        (getPriority (c.deleteLeaf x.2) ((c.deleteLeaf x.2).node x.2).parent,
          ((c.deleteLeaf x.2).node x.2).parent) :: rest
      else rest) := by
  refine ⟨h.toHeapOk.next hwf _, ?_, ?_⟩
  · obtain ⟨hx, hxr, hxk⟩ := h.leaf x List.mem_cons_self
    have hp : (c.node x.2).parent ∈ live := hwf.labelled.parent_live hx hxr
    have hpx : (c.node x.2).parent ≠ x.2 := hwf.labelled.parent_ne_self hx hxr
    have hb' := hb.keeps (keeps_deleteLeaf hwf hx hxr)
    have hparent := hb'.mem_leaves_iff (deleteLeaf_wf hwf hx hxr hxk)
      (show (c.node x.2).parent ∈ live \ {x.2} from ⟨hp, hpx⟩)
    have hnot := h.toHeapOk.parent_notMem hwf hx hxr
    have hnd := h.nodup
    rw [List.map_cons, List.nodup_cons] at hnd
    rw [List.map_cons, List.mem_cons, not_or] at hnot
    have hrest : ∀ n, n ≠ (c.node x.2).parent →
        (n ∈ rest.map (·.2) ↔ n ∈ (c.deleteLeaf x.2).evictableLeaves) := by
      intro n hnp
      have hmem := h.mem n
      rw [List.map_cons, List.mem_cons] at hmem
      rw [hb.leaves.mem_deleteLeaf_iff hb'.leaves hnp, ← hmem]
      constructor
      · exact fun hn => ⟨Or.inr hn, fun heq => hnd.1 (heq ▸ hn)⟩
      · exact fun hn => hn.1.resolve_left hn.2
    rw [node_deleteLeaf_ne c (Ne.symm hpx)]
    intro n
    by_cases hnp : n = (c.node x.2).parent
    · rw [hnp, hparent]
      split
      · rename_i hleaf
        exact iff_of_true List.mem_cons_self hleaf
      · rename_i hleaf
        exact iff_of_false hnot.2 hleaf
    · rw [← hrest n hnp]
      split
      · rw [List.map_cons, List.mem_cons]
        exact or_iff_right hnp
      · exact Iff.rfl
  · have hold : ∀ y ∈ rest, y.1 = getPriority (c.deleteLeaf x.2) y.2 := by
      intro y hy
      rw [hstable]
      exact h.priority y (List.mem_cons_of_mem _ hy)
    intro y hy
    split at hy
    · rcases List.mem_cons.mp hy with rfl | hy
      · rfl
      · exact hold y hy
    · exact hold y hy

variable [LinearOrder P]

/-- What holds when `x` is taken: the tree is in order, and no other evictable leaf comes
before `x`. -/
structure Victim (getPriority : RadixCache → NodeId → P) (live : Set NodeId)
    (rp : NodeId → List ChildKey) (pv : NodeId → List Index) (locks refs : List NodeId)
    (c : RadixCache) (x : NodeId) : Prop where
  tree : ∃ live' ⊆ live, WF c live' rp pv ∧ Balanced c live' locks refs
  leaf : x ∈ c.evictableLeaves
  least : ∀ y ∈ c.evictableLeaves, getPriority c x ≤ getPriority c y

/-- **Each victim is a least evictable leaf** of the cache it is taken from. -/
theorem evictedLoop_least (q : HeapQ P)
    (hstable : ∀ c n m, getPriority (deleteLeaf c n) m = getPriority c m) (numTokens : Nat) :
    ∀ (fuel : Nat) (c : RadixCache) (live : Set NodeId) (heap : List (P × NodeId)) (numFreed : Nat),
      WF c live rp pv → Balanced c live locks refs → HeapExact getPriority c live heap →
      ∀ pre x post,
        evictedLoop (q.evictionHeap getPriority) numTokens fuel c heap numFreed = pre ++ x :: post →
        Victim getPriority live rp pv locks refs (c.afterDeleting pre) x := by
  intro fuel
  induction fuel with
  | zero => intro c live heap numFreed _ _ _ pre x post h; simp [evictedLoop] at h
  | succ fuel ih =>
      intro c live heap numFreed hwf hb hheap pre x post h
      unfold evictedLoop at h
      by_cases hlt : numFreed < numTokens
      · rw [if_pos hlt] at h
        cases hpop : q.heappop c heap with
        | none => simp [hpop] at h
        | some xr =>
            obtain ⟨y, rest⟩ := xr
            have hpop' : (q.evictionHeap getPriority).heappop c heap = some (y, rest) := hpop
            rw [hpop'] at h
            have hheap := hheap.perm (q.pop_perm c heap y rest hpop)
            obtain ⟨hy, hyr, hyk⟩ := hheap.leaf y List.mem_cons_self
            cases pre with
            | nil =>
                have hx : y.2 = x := (List.cons.inj h).1
                subst hx
                refine ⟨⟨live, fun _ hn => hn, hwf, hb⟩, ?_, ?_⟩
                · exact (hheap.mem y.2).mp List.mem_cons_self
                · intro n hn
                  obtain ⟨z, hz, rfl⟩ := List.mem_map.mp ((hheap.mem n).mpr hn)
                  show getPriority c y.2 ≤ getPriority c z.2
                  rw [← hheap.priority y List.mem_cons_self, ← hheap.priority z hz]
                  rcases List.mem_cons.mp hz with rfl | hz
                  · exact le_refl _
                  · rcases q.pop_least c heap y rest hpop z hz with hlt | ⟨heq, -⟩
                    · exact le_of_lt hlt
                    · exact le_of_eq heq
            | cons z pre =>
                obtain ⟨hz, htail⟩ := List.cons.inj h
                subst hz
                obtain ⟨⟨live', hsub, htree⟩, hleaf, hleast⟩ := ih (c.deleteLeaf y.2) (live \ {y.2}) _ _
                  (deleteLeaf_wf hwf hy hyr hyk) (hb.keeps (keeps_deleteLeaf hwf hy hyr))
                  (hheap.next hstable hwf hb) pre x post htail
                exact ⟨⟨live', hsub.trans Set.sdiff_subset, htree⟩, hleaf, hleast⟩
      · rw [if_neg hlt] at h
        simp at h

theorem evicted_least (q : HeapQ P)
    (hstable : ∀ c n m, getPriority (deleteLeaf c n) m = getPriority c m) (hwf : WF c live rp pv)
    (hb : Balanced c live locks refs) {numTokens : Nat} {pre post : List NodeId} {x : NodeId}
    (h : c.evicted (q.evictionHeap getPriority) numTokens = pre ++ x :: post) :
    Victim getPriority live rp pv locks refs (c.afterDeleting pre) x := by
  unfold evicted at h
  by_cases hd : c.disable = true
  · rw [if_pos hd] at h
    simp at h
  · rw [if_neg hd] at h
    exact evictedLoop_least q hstable numTokens _ c live _ 0 hwf hb (heapExact_start hwf) pre x post h

end

end RadixCache

end Peek

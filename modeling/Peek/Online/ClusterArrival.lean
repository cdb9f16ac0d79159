/-
Clusters and the order in which they arrived.

With all hits equal the cluster key emits the clusters by the id of their node.  An id is a place
in the arena, which never shrinks, so a node that the arena gained at the insert of its cluster's
earliest pending request is older than one gained later (`clustersByArrival_of_gained`).  Ids that
a split hands on, or that come off the freelist, say nothing of the kind.
-/
import Peek.Online.SortKeys
import Peek.Pending.Walk

namespace Peek

open LaneMerge

/-! ### The arena never shrinks -/

namespace Tree

variable (t : Tree)

@[simp] theorem size_freeSlot (i : NodeId) : (t.freeSlot i).nodes.size = t.nodes.size :=
  Array.size_setIfInBounds

theorem size_le_alloc (edge : List Token) (parent : NodeId) :
    t.nodes.size ≤ (t.alloc edge parent).1.nodes.size := by
  unfold alloc
  split
  · exact Array.size_setIfInBounds.ge
  · rw [Array.size_push]
    exact Nat.le_succ _

theorem size_le_splitEdge (node : NodeId) (offset : Nat) :
    t.nodes.size ≤ (t.splitEdge node offset).nodes.size := by
  unfold splitEdge
  simp only [size_nodeMut, size_reparent]
  refine le_trans (le_of_eq ?_) (size_le_alloc _ _ _)
  exact (size_nodeMut t node _).symm

@[simp] theorem size_climb (f : Node → Node) (fuel : Nat) (cur : NodeId) :
    (climb f fuel cur t).nodes.size = t.nodes.size := by
  induction fuel generalizing t cur with
  | zero => rfl
  | succ fuel ih =>
      unfold climb
      split
      · rfl
      · rw [ih]
        exact size_nodeMut t cur f

theorem size_le_insert (rid : Rid) (tokens : List Token) :
    t.nodes.size ≤ (t.insert rid tokens).nodes.size := by
  have hsplit : t.nodes.size ≤ (t.splitAt (t.descend tokens)).nodes.size := by
    unfold splitAt
    split
    · exact size_le_splitEdge t _ _
    · exact le_rfl
  unfold insert
  simp only [size_climb, size_nodeMut]
  split
  · exact hsplit
  · unfold addChild
    simp only [size_nodeMut]
    exact hsplit.trans (size_le_alloc _ _ _)

theorem size_gc (fuel : Nat) (node : NodeId) : (t.gc fuel node).nodes.size = t.nodes.size := by
  induction fuel generalizing t node with
  | zero => rfl
  | succ fuel ih =>
      unfold gc
      simp only
      split_ifs
      · rfl
      · rw [ih, size_freeSlot, size_nodeMut]
      · rw [size_freeSlot, size_nodeMut, size_reparent, size_nodeMut, size_nodeMut]
      · rfl

theorem size_remove (rid : Rid) (tokens : List Token) :
    (t.remove rid tokens).2.nodes.size = t.nodes.size := by
  unfold remove
  simp only
  split_ifs
  · rfl
  · rw [size_gc, size_climb, size_nodeMut]
  · rfl

end Tree

theorem PendingTree.size_remove (p : PendingTree) (rid : Rid) :
    (p.remove rid).2.tree.nodes.size = p.tree.nodes.size := by
  unfold PendingTree.remove
  split
  · rfl
  · exact p.tree.size_remove rid _

/-! ### Runs -/

/-- A call that changes the pending tree. -/
inductive TreeCall where
  | insert (rid : Rid) (tokens : List Token)
  | remove (rid : Rid)

/-- A pending request, and how large the arena was before and after its insert. -/
structure Arrival where
  rid : Rid
  sizeBefore : Nat
  sizeAfter : Nat

/-- The tree in the course of a run, and what is pending in the order it was inserted. -/
structure TreeRun where
  tree : PendingTree
  arrived : List Arrival

namespace TreeRun

/-- One call; an insert of a pending rid and a removal of an absent one change nothing. -/
def step (s : TreeRun) : TreeCall → TreeRun
  | .insert rid tokens =>
      let (ok, tree) := s.tree.insert rid tokens
      if ok then
        ⟨tree, s.arrived ++ [⟨rid, s.tree.tree.nodes.size, tree.tree.nodes.size⟩]⟩
      else s
  | .remove rid =>
      let (ok, tree) := s.tree.remove rid
      ⟨tree, if ok then s.arrived.filter fun a => a.rid ≠ rid else s.arrived⟩

def after (calls : List TreeCall) : TreeRun := calls.foldl step ⟨PendingTree.new, []⟩

/-- `rid` was inserted before `rid'`, and both are pending. -/
def InsertedBefore (s : TreeRun) (rid rid' : Rid) : Prop := Before (s.arrived.map Arrival.rid) rid rid'

/-- The arena gained the slot `n` when `rid` was inserted. -/
def Gained (s : TreeRun) (rid : Rid) (n : NodeId) : Prop :=
  ∀ a ∈ s.arrived, a.rid = rid → a.sizeBefore ≤ n ∧ n < a.sizeAfter

/-- What the arena gained at different inserts lies one after the other. -/
structure Growing (s : TreeRun) : Prop where
  within : ∀ a ∈ s.arrived, a.sizeAfter ≤ s.tree.tree.nodes.size
  apart : s.arrived.Pairwise fun a b => a.sizeAfter ≤ b.sizeBefore

theorem step_insert (s : TreeRun) (rid : Rid) (tokens : List Token) :
    s.step (.insert rid tokens) = if s.tree.contains rid then s else
      ⟨(s.tree.insert rid tokens).2, s.arrived ++ [⟨rid, s.tree.tree.nodes.size,
        (s.tree.tree.insert rid tokens).nodes.size⟩]⟩ := by
  unfold step PendingTree.insert
  by_cases hmem : s.tree.contains rid
  · simp only [hmem, if_true, Bool.false_eq_true, if_false]
  · simp only [hmem, Bool.false_eq_true, if_false, if_true]

theorem Growing.step {s : TreeRun} (h : Growing s) (call : TreeCall) : Growing (s.step call) := by
  cases call with
  | insert rid tokens =>
      rw [step_insert]
      by_cases hmem : s.tree.contains rid
      · rw [if_pos hmem]
        exact h
      · rw [if_neg hmem]
        have hgrow := s.tree.tree.size_le_insert rid tokens
        unfold PendingTree.insert
        rw [if_neg hmem]
        refine ⟨fun a ha => ?_, List.pairwise_append.mpr ⟨h.apart, List.pairwise_singleton _ _,
          fun a ha b hb => ?_⟩⟩
        · rcases List.mem_append.mp ha with ha | ha
          · exact (h.within a ha).trans hgrow
          · rw [List.mem_singleton.mp ha]
        · rw [List.mem_singleton.mp hb]
          exact h.within a ha
  | remove rid =>
      have hwithin : ∀ a ∈ s.arrived, a.sizeAfter ≤ (s.tree.remove rid).2.tree.nodes.size := by
        intro a ha
        rw [s.tree.size_remove]
        exact h.within a ha
      show Growing ⟨(s.tree.remove rid).2, if (s.tree.remove rid).1 = true then _ else _⟩
      split
      · exact ⟨fun a ha => hwithin a (List.mem_of_mem_filter ha), h.apart.filter _⟩
      · exact ⟨hwithin, h.apart⟩

theorem growing_after (calls : List TreeCall) : Growing (after calls) := by
  suffices key : ∀ (calls : List TreeCall) (s : TreeRun), Growing s →
      Growing (calls.foldl TreeRun.step s) from
    key calls _ ⟨fun _ h => absurd h List.not_mem_nil, List.Pairwise.nil⟩
  intro calls
  induction calls with
  | nil => exact fun _ h => h
  | cons call calls ih => exact fun _ h => ih _ (h.step call)

/-- **Slots gained later are higher.** -/
theorem Growing.lt_of_gained {s : TreeRun} (h : Growing s) {rid rid' : Rid} {m n : NodeId}
    (hbefore : s.InsertedBefore rid rid') (hm : s.Gained rid m) (hn : s.Gained rid' n) : m < n := by
  obtain ⟨a, b, hab, rfl, rfl⟩ := hbefore.of_map
  have hm := hm a hab.left_mem rfl
  have hn := hn b hab.right_mem rfl
  exact hm.2.trans_le ((hab.rel h.apart).trans hn.1)

end TreeRun

/-! ### Clusters in the queue -/

section

variable (ridToInt : Map ReqId Rid) (s : TreeRun) (queue : List Req)

/-- `cluster_info` of a request, if it has one: the node. -/
def clusterOf (r : Req) : Option NodeId :=
  ((ridToInt.lookup r.rid).bind fun rid => (s.tree.allClusterInfo.lookup rid).join).map (·.1)

/-- The request `r` was inserted before `x`. -/
def ArrivedBefore (r x : Req) : Prop :=
  ∃ rid rid', ridToInt.lookup r.rid = some rid ∧ ridToInt.lookup x.rid = some rid' ∧
    s.InsertedBefore rid rid'

/-- `r` is the earliest request of the cluster `n` in the queue. -/
structure Earliest (n : NodeId) (r : Req) : Prop where
  mem : r ∈ queue
  cluster : clusterOf ridToInt s r = some n
  first : ∀ x ∈ queue, clusterOf ridToInt s x = some n → x = r ∨ ArrivedBefore ridToInt s r x

/-- Of two clusters the one whose earliest request was inserted first is emitted first. -/
def ClustersByArrival (result : List Req) : Prop :=
  ∀ m n, m ≠ n → ∀ r x, Earliest ridToInt s queue m r → Earliest ridToInt s queue n x →
    ArrivedBefore ridToInt s r x → ∀ y ∈ queue, ∀ z ∈ queue, clusterOf ridToInt s y = some m →
      clusterOf ridToInt s z = some n → Before result y z

/-- Of two clusters the one whose earliest request was inserted first has the lower node id. -/
def NodesByArrival : Prop :=
  ∀ m n, m ≠ n → ∀ r x, Earliest ridToInt s queue m r → Earliest ridToInt s queue n x →
    ArrivedBefore ridToInt s r x → m < n

/-- Each cluster's node was new when its earliest request was inserted. -/
def NodesGained : Prop :=
  ∀ n r, Earliest ridToInt s queue n r → ∀ rid, ridToInt.lookup r.rid = some rid → s.Gained rid n

variable {ridToInt s queue}

theorem nodeOf_of_clusterOf {r : Req} {n : NodeId} (h : clusterOf ridToInt s r = some n) :
    nodeOf ridToInt s.tree r = n := by
  unfold clusterOf at h
  unfold nodeOf clusterNode
  cases hinfo : (ridToInt.lookup r.rid).bind fun rid => (s.tree.allClusterInfo.lookup rid).join with
  | none =>
      rw [hinfo] at h
      exact absurd h (by simp)
  | some info =>
      rw [hinfo] at h
      exact Option.some.inj h

variable {o : SortOptions}

/-- With all hits equal the clusters come by node id. -/
theorem before_iff_node_lt (hrids : (queue.map Req.rid).Nodup)
    (hrank : o.rankByClusterSize = true) (hlpm : o.peekLpmSort = false)
    (hequal : ∀ y ∈ queue, ∀ z ∈ queue,
      mainHit ridToInt o.mainHits y = mainHit ridToInt o.mainHits z)
    {m n : NodeId} (hne : m ≠ n) {y z : Req} (hy : y ∈ queue) (hz : z ∈ queue)
    (hm : clusterOf ridToInt s y = some m) (hn : clusterOf ridToInt s z = some n) :
    Before (peekSortInplace queue ridToInt s.tree o).1 y z ↔ m < n := by
  have hyz : y ≠ z := by
    rintro rfl
    exact hne (Option.some.inj (hm.symm.trans hn))
  rw [before_iff_clusterBefore hrids hrank hlpm hy hz hyz]
  unfold ClusterBefore
  simp only [nodeOf_of_clusterOf hm, nodeOf_of_clusterOf hn, hequal y hy z hz, lt_irrefl, false_or,
    true_and, hne, false_and, or_false]

/-- **The clusters come by arrival just when their node ids do.** -/
theorem clustersByArrival_iff (hrids : (queue.map Req.rid).Nodup)
    (hrank : o.rankByClusterSize = true) (hlpm : o.peekLpmSort = false)
    (hequal : ∀ y ∈ queue, ∀ z ∈ queue,
      mainHit ridToInt o.mainHits y = mainHit ridToInt o.mainHits z) :
    ClustersByArrival ridToInt s queue (peekSortInplace queue ridToInt s.tree o).1 ↔
      NodesByArrival ridToInt s queue := by
  constructor
  · intro h m n hne r x hr hx harr
    refine (before_iff_node_lt hrids hrank hlpm hequal hne hr.mem hx.mem hr.cluster hx.cluster).mp ?_
    exact h m n hne r x hr hx harr r hr.mem x hx.mem hr.cluster hx.cluster
  · intro h m n hne r x hr hx harr y hy z hz hm hn
    refine (before_iff_node_lt hrids hrank hlpm hequal hne hy hz hm hn).mpr ?_
    exact h m n hne r x hr hx harr

/-- **Nodes that were new at the insert of their earliest request come by arrival.** -/
theorem nodesByArrival_of_gained (hs : s.Growing) (h : NodesGained ridToInt s queue) :
    NodesByArrival ridToInt s queue := by
  intro m n hne r x hr hx ⟨rid, rid', hrid, hrid', hbefore⟩
  exact hs.lt_of_gained hbefore (h m r hr rid hrid) (h n x hx rid' hrid')

end

/--
**Clusters in arrival order.**  After every run of inserts and removals, with all hits equal, the
clusters of the queue come in the order of their earliest requests just when their node ids do; and
they do if each node was new in the arena when its cluster's earliest request was inserted.
-/
theorem clustersByArrival_after (calls : List TreeCall) (ridToInt : Map ReqId Rid)
    (queue : List Req) (o : SortOptions) (hrids : (queue.map Req.rid).Nodup)
    (hrank : o.rankByClusterSize = true) (hlpm : o.peekLpmSort = false)
    (hequal : ∀ y ∈ queue, ∀ z ∈ queue,
      mainHit ridToInt o.mainHits y = mainHit ridToInt o.mainHits z) :
    let s := TreeRun.after calls
    (ClustersByArrival ridToInt s queue (peekSortInplace queue ridToInt s.tree o).1 ↔
      NodesByArrival ridToInt s queue) ∧
    (NodesGained ridToInt s queue →
      ClustersByArrival ridToInt s queue (peekSortInplace queue ridToInt s.tree o).1) := by
  intro s
  have hiff := clustersByArrival_iff (s := s) hrids hrank hlpm hequal
  refine ⟨hiff, fun h => hiff.mpr ?_⟩
  exact nodesByArrival_of_gained (TreeRun.growing_after calls) h

/-- The older prompt is split twice, and repeated, before the other one is shared at all. -/
def splitTwice : List TreeCall :=
  [.insert 0 [1, 2, 3], .insert 1 [5], .insert 2 [1, 9], .insert 3 [5, 6], .insert 4 [1, 2, 3]]

def splitTwiceQueue : List Req :=
  [⟨"a", [1, 2, 3], [], none, [], none, false⟩, ⟨"b", [5], [], none, [], none, false⟩,
    ⟨"c", [1, 9], [], none, [], none, false⟩, ⟨"d", [5, 6], [], none, [], none, false⟩,
    ⟨"e", [1, 2, 3], [], none, [], none, false⟩]

def splitTwiceIds : Map ReqId Rid :=
  (((((∅ : Map ReqId Rid).insert "a" 0).insert "b" 1).insert "c" 2).insert "d" 3).insert "e" 4

theorem clustersByArrival_after_splitTwice :
    let s := TreeRun.after splitTwice
    (ClustersByArrival splitTwiceIds s splitTwiceQueue
        (peekSortInplace splitTwiceQueue splitTwiceIds s.tree {}).1 ↔
      NodesByArrival splitTwiceIds s splitTwiceQueue) ∧
    (NodesGained splitTwiceIds s splitTwiceQueue → ClustersByArrival splitTwiceIds s splitTwiceQueue
      (peekSortInplace splitTwiceQueue splitTwiceIds s.tree {}).1) :=
  clustersByArrival_after splitTwice splitTwiceIds splitTwiceQueue {} (by decide) rfl rfl
    (by decide +kernel)

/-- The lower half of a split has got a newer id than the cluster of the younger prompt. -/
theorem not_clustersByArrival_splitTwice :
    QueueInSync splitTwiceIds (TreeRun.after splitTwice).tree splitTwiceQueue ∧
    (peekSortInplace splitTwiceQueue splitTwiceIds (TreeRun.after splitTwice).tree {}).1.map Req.rid =
      ["c", "b", "d", "a", "e"] ∧
    ¬ ClustersByArrival splitTwiceIds (TreeRun.after splitTwice) splitTwiceQueue
      (peekSortInplace splitTwiceQueue splitTwiceIds (TreeRun.after splitTwice).tree {}).1 := by
  refine ⟨by decide +kernel, by decide +kernel, fun h => ?_⟩
  have harrived : (TreeRun.after splitTwice).arrived.map Arrival.rid = [0, 1, 2, 3, 4] := by
    decide +kernel
  have hbefore : ∀ i j : Fin 5, i < j → Before [0, 1, 2, 3, 4] i.val j.val := by
    intro i j hij
    refine before_of_lt (f := id) (by decide) (List.mem_range.mpr i.isLt) (List.mem_range.mpr j.isLt) hij
  have hfirst : ∀ r x : Req, ∀ i j : Fin 5, i < j → splitTwiceIds.lookup r.rid = some i.val →
      splitTwiceIds.lookup x.rid = some j.val →
      ArrivedBefore splitTwiceIds (TreeRun.after splitTwice) r x := by
    intro r x i j hij hi hj
    refine ⟨i.val, j.val, hi, hj, ?_⟩
    unfold TreeRun.InsertedBefore
    rw [harrived]
    exact hbefore i j hij
  have hnodes := (clustersByArrival_iff (by decide) rfl rfl (by decide +kernel)).mp h
  have houter : ∀ x ∈ splitTwiceQueue,
      clusterOf splitTwiceIds (TreeRun.after splitTwice) x = some 3 →
      x = splitTwiceQueue.getD 0 default ∨ x = splitTwiceQueue.getD 4 default := by
    decide +kernel
  have hother : ∀ x ∈ splitTwiceQueue,
      clusterOf splitTwiceIds (TreeRun.after splitTwice) x = some 2 →
      x = splitTwiceQueue.getD 1 default ∨ x = splitTwiceQueue.getD 3 default := by
    decide +kernel
  have hlt := hnodes 3 2 (by decide) (splitTwiceQueue.getD 0 default) (splitTwiceQueue.getD 1 default)
    ⟨by decide, by decide +kernel, fun x hx hcluster => (houter x hx hcluster).imp id ?_⟩
    ⟨by decide, by decide +kernel, fun x hx hcluster => (hother x hx hcluster).imp id ?_⟩
    (hfirst _ _ 0 1 (by decide) (by decide) (by decide))
  · exact absurd hlt (by decide)
  · rintro rfl
    exact hfirst _ _ 0 4 (by decide) (by decide) (by decide)
  · rintro rfl
    exact hfirst _ _ 1 3 (by decide) (by decide) (by decide)

end Peek

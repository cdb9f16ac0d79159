/-
The order that goes with the cache tree.

Under `dfs-weight` the waiting queue is listed along the tree, so that requests that share a
prefix are scheduled one after the other while the prefix is in the cache: a node weighs as many
requests as wait at or below it, the heaviest child is visited first, and the requests of a node
come after those below it.  A request that waits at no node of the tree is not listed at all.
-/
import Peek.Base.Groups
import Peek.Base.PostOrder
import Peek.Base.Sorting
import Peek.Sglang.SchedulePolicy
import Peek.Sglang.Sizes

namespace Peek

open Radix StackWalk DepthFirst RadixCache

namespace SchedulePolicy

/-! ### The functions -/

/-- `last_node_to_reqs[n]` -/
def lastNodeToReqs (waitingQueue : List Req) (n : NodeId) : List Req :=
  waitingQueue.filter fun r => r.lastNode = some n

/-- `_calc_weight`.  `children` lists the values of a dictionary; the fuel bounds the depth. -/
def calcWeight (children : NodeId → List NodeId) : Nat → NodeId → (NodeId → Nat) → NodeId → Nat
  | 0, _, nodeToWeight => nodeToWeight
  | fuel + 1, curNode, nodeToWeight =>
      (children curNode).foldl (fun weight child =>
        let weight := calcWeight children fuel child weight
        Function.update weight curNode (weight curNode + weight child)) nodeToWeight

/-- The children of a node, heaviest first. -/
def heaviestFirst (children : NodeId → List NodeId) (nodeToPriority : NodeId → Nat)
    (curNode : NodeId) : List NodeId :=
  (children curNode).insertionSort fun a b =>
    -(nodeToPriority a : Int) ≤ -(nodeToPriority b : Int)

/-- `_get_dfs_priority` -/
def getDfsPriority (children : NodeId → List NodeId) (nodeToPriority : NodeId → Nat)
    (reqs : NodeId → List Req) : Nat → NodeId → List Req → List Req
  | 0, _, q => q
  | fuel + 1, curNode, q =>
      (heaviestFirst children nodeToPriority curNode).foldl
        (fun q child => getDfsPriority children nodeToPriority reqs fuel child q) q ++ reqs curNode

/-- `_sort_by_dfs_weight` -/
def sortByDfsWeight (children : NodeId → List NodeId) (treeCache : RadixCache)
    (waitingQueue : List Req) : List Req :=
  let reqs := lastNodeToReqs waitingQueue
  let nodeToWeight := calcWeight children treeCache.nodes.size rootNode fun n => (reqs n).length
  getDfsPriority children nodeToWeight reqs treeCache.nodes.size rootNode []

/-! ### The weights -/

section

variable {children : NodeId → List NodeId} {S : Set NodeId} {nodes : Finset NodeId} {n : NodeId}

/-- The weight of what hangs at or below `m`. -/
noncomputable def weightBelow (children : NodeId → List NodeId) (nodes : Finset NodeId)
    (weight : NodeId → Nat) (m : NodeId) : Nat :=
  ∑ x ∈ subtree children nodes m, weight x

theorem weightBelow_congr {weight weight' : NodeId → Nat} {m : NodeId}
    (h : ∀ x, Under children m x → weight' x = weight x) :
    weightBelow children nodes weight' m = weightBelow children nodes weight m :=
  Finset.sum_congr rfl fun x hx => h x (mem_subtree.mp hx).2

/-- What `calcWeight` leaves behind: sums at and below `n`, and nothing new elsewhere. -/
structure Weighed (children : NodeId → List NodeId) (nodes : Finset NodeId) (n : NodeId)
    (weight weight' : NodeId → Nat) : Prop where
  below : ∀ m, Under children n m → weight' m = weightBelow children nodes weight m
  other : ∀ m, ¬ Under children n m → weight' m = weight m

/-- The loop over the children `l` of `n`, those before them being done. -/
theorem weighed_foldl (h : IsForest children S) (hn : n ∈ S) {weight : NodeId → Nat}
    {f : NodeId → (NodeId → Nat) → NodeId → Nat}
    (hf : ∀ k ∈ children n, ∀ weight, Weighed children nodes k weight (f k weight)) :
    ∀ (l : List NodeId) (before : NodeId → Nat), (∀ k ∈ l, k ∈ children n) → l.Nodup →
      (∀ k ∈ l, ∀ x, Under children k x → before x = weight x) →
      let after := l.foldl (fun w k => Function.update (f k w) n (f k w n + f k w k)) before
      after n = before n + (l.map (weightBelow children nodes weight)).sum ∧
        (∀ k ∈ l, ∀ m, Under children k m → after m = weightBelow children nodes weight m) ∧
        ∀ m, m ≠ n → (∀ k ∈ l, ¬ Under children k m) → after m = before m := by
  intro l
  induction l with
  | nil => intro before _ _ _; simp
  | cons k l ih =>
      intro before hkids hnd hbefore
      have hk := hkids k List.mem_cons_self
      have hl : ∀ k' ∈ l, k' ∈ children n := fun k' hk' => hkids k' (List.mem_cons_of_mem k hk')
      obtain ⟨hkl, hnd⟩ := List.nodup_cons.mp hnd
      have hnot : ¬ Under children k n := h.acyclic n hn k hk
      obtain ⟨hbelow, hother⟩ := hf k hk before
      set step := Function.update (f k before) n (f k before n + f k before k) with hstep
      have hsum : ∀ m, Under children k m → f k before m = weightBelow children nodes weight m :=
        fun m hm => (hbelow m hm).trans (weightBelow_congr fun x hx =>
          hbefore k List.mem_cons_self x (hm.trans hx))
      have hne : ∀ {k' m : NodeId}, k' ∈ children n → Under children k' m → m ≠ n := by
        rintro k' m hk' hm rfl
        exact h.acyclic m hn k' hk' hm
      have hrest : ∀ k' ∈ l, ∀ x, Under children k' x → step x = weight x := by
        intro k' hk' x hx
        have hapart : ¬ Under children k x := fun hkx =>
          hkl (kid_unique h hn hk (hl k' hk') hkx hx ▸ hk')
        rw [hstep, Function.update_of_ne (hne (hl k' hk') hx), hother x hapart]
        exact hbefore k' (List.mem_cons_of_mem k hk') x hx
      obtain ⟨hself, hbelow', hother'⟩ := ih step hl hnd hrest
      refine ⟨?_, fun k' hk' m hm => ?_, fun m hm hnone => ?_⟩
      · rw [List.foldl_cons, hself, hstep, Function.update_self, hother n hnot,
          hsum k (Under.refl k), List.map_cons, List.sum_cons, Nat.add_assoc]
      · rcases List.mem_cons.mp hk' with rfl | hk'
        · have hapart : ∀ k'' ∈ l, ¬ Under children k'' m := fun k'' hk'' hm' =>
            hkl (kid_unique h hn hk (hl k'' hk'') hm hm' ▸ hk'')
          rw [List.foldl_cons, hother' m (hne hk hm) hapart, hstep,
            Function.update_of_ne (hne hk hm), hsum m hm]
        · exact hbelow' k' hk' m hm
      · rw [List.foldl_cons, hother' m hm fun k' hk' => hnone k' (List.mem_cons_of_mem k hk'),
          hstep, Function.update_of_ne hm, hother m (hnone k List.mem_cons_self)]

/-- **A node weighs what waits at or below it.** -/
theorem weighed_calcWeight (h : IsForest children S) (hnodes : ∀ m ∈ S, m ∈ nodes) :
    ∀ (fuel : Nat) (n : NodeId) (weight : NodeId → Nat), n ∈ S →
      (subtree children nodes n).card ≤ fuel →
      Weighed children nodes n weight (calcWeight children fuel n weight) := by
  intro fuel
  induction fuel with
  | zero =>
      intro n weight hn hcard
      have hself : n ∈ subtree children nodes n := mem_subtree.mpr ⟨hnodes n hn, Under.refl n⟩
      rw [Finset.card_eq_zero.mp (Nat.le_zero.mp hcard)] at hself
      exact absurd hself (Finset.notMem_empty n)
  | succ fuel ih =>
      intro n weight hn hcard
      have hkids : ∀ k ∈ children n, ∀ weight,
          Weighed children nodes k weight (calcWeight children fuel k weight) :=
        fun k hk weight => ih k weight (h.closed n hn k hk)
          (Nat.le_of_lt_succ ((card_subtree_lt h hnodes hn hk).trans_le hcard))
      obtain ⟨hself, hbelow, hother⟩ := weighed_foldl h hn hkids (children n) weight
        (fun _ hk => hk) (nodup_kids h hn) fun _ _ _ _ => rfl
      refine ⟨fun m hm => ?_, fun m hm => ?_⟩
      · rcases hm.cases with rfl | ⟨k, hk, hm⟩
        · rw [weightBelow, sum_subtree h hnodes hn]
          exact hself
        · exact hbelow k hk m hm
      · refine hother m ?_ fun k hk hkm => hm (Under.step hk hkm)
        rintro rfl
        exact hm (Under.refl m)

end

/-! ### The list along the tree -/

theorem getDfsPriority_eq (children : NodeId → List NodeId) (weight : NodeId → Nat)
    (reqs : NodeId → List Req) : ∀ (fuel : Nat) (n : NodeId) (q : List Req),
      getDfsPriority children weight reqs fuel n q =
        q ++ postorder (heaviestFirst children weight) reqs fuel n := by
  intro fuel
  induction fuel with
  | zero => intro n q; rw [getDfsPriority, postorder, List.append_nil]
  | succ fuel ih =>
      intro n q
      have hloop : ∀ (l : List NodeId) (q : List Req),
          l.foldl (fun q k => getDfsPriority children weight reqs fuel k q) q =
            q ++ l.flatMap (postorder (heaviestFirst children weight) reqs fuel) := by
        intro l
        induction l with
        | nil => intro q; simp
        | cons k l ihl =>
            intro q
            rw [List.foldl_cons, ihl, ih, List.flatMap_cons, List.append_assoc]
      rw [getDfsPriority, hloop, postorder, List.append_assoc]

/-- The request waits at the node, or below it. -/
def WaitsBelow (c : RadixCache) (n : NodeId) (r : Req) : Prop :=
  ∃ m, r.lastNode = some m ∧ Below c.heap n m

open Classical in
/-- How many requests wait at a node or below it. -/
noncomputable def waiting (c : RadixCache) (waitingQueue : List Req) (n : NodeId) : Nat :=
  waitingQueue.countP (WaitsBelow c n)

open Classical in
/-- The requests of some nodes, node by node. -/
theorem flatMap_lastNodeToReqs_perm (queue : List Req) {l : List NodeId} (hnd : l.Nodup) :
    (l.flatMap (lastNodeToReqs queue)).Perm
      (queue.filter fun r => ∃ n ∈ l, r.lastNode = some n) := by
  have hmem : ∀ r ∈ queue.filter (fun r => ∃ n ∈ l, r.lastNode = some n),
      r.lastNode ∈ l.map some := by
    intro r hr
    obtain ⟨n, hn, heq⟩ := of_decide_eq_true (List.mem_filter.mp hr).2
    exact List.mem_map.mpr ⟨n, hn, heq.symm⟩
  have hperm := flatMap_filter_perm Req.lastNode (l.map some) _
    (hnd.map (Option.some_injective _)) hmem
  refine (List.Perm.of_eq ?_).trans hperm
  rw [List.flatMap_map]
  refine List.flatMap_congr fun n hn => ?_
  rw [lastNodeToReqs, List.filter_filter]
  refine List.filter_congr fun r _ => ?_
  by_cases hr : r.lastNode = some n
  · simp [hr, hn]
  · simp [hr]

variable {c : RadixCache} {live : Set NodeId} {rp : NodeId → List ChildKey}
  {pv : NodeId → List Index} {children : NodeId → List NodeId} {queue : List Req}

/-- The children of a node, in whatever order, are its children in the heap. -/
theorem isForest_of_perm (h : WF c live rp pv) (hperm : ∀ n, (children n).Perm (c.childList n)) :
    ListsKids c.heap children ∧ IsForest children live := by
  have hlists : ListsKids c.heap children := fun n k =>
    (hperm n).mem_iff.trans (listsKids_childList c n k)
  exact ⟨hlists, h.labelled.isForest hlists fun n hn =>
    (hperm n).nodup_iff.mpr (nodup_kids h.isForest_childList hn)⟩

/-- A node weighs as many requests as wait at or below it. -/
theorem weightBelow_eq (h : WF c live rp pv) (hlists : ListsKids c.heap children)
    (hforest : IsForest children live) (queue : List Req) {n : NodeId} (hn : n ∈ live) :
    weightBelow children c.tree (fun m => (lastNodeToReqs queue m).length) n =
      waiting c queue n := by
  classical
  have hperm := flatMap_lastNodeToReqs_perm queue (subtree children c.tree n).nodup_toList
  have hlen := hperm.length_eq
  rw [List.length_flatMap, ← List.countP_eq_length_filter] at hlen
  rw [weightBelow, waiting, ← Finset.sum_map_toList, hlen]
  refine List.countP_congr fun r _ => ?_
  rw [decide_eq_true_iff, decide_eq_true_iff]
  simp only [Finset.mem_toList, mem_subtree]
  constructor
  · rintro ⟨m, ⟨-, hu⟩, hr⟩
    exact ⟨m, hr, (under_iff_below hlists).mp hu⟩
  · rintro ⟨m, hr, hb⟩
    have hu := (under_iff_below hlists).mpr hb
    exact ⟨m, ⟨h.mem_tree.mpr (hforest.mem_of_under hu hn), hu⟩, hr⟩

/-- The children of a node of the tree, heaviest first, by how many requests wait below them. -/
def BeforeSibling (c : RadixCache) (queue : List Req) (a b : Req) : Prop :=
  ∃ n k k', c.InTree n ∧ k ∈ c.childList n ∧ k' ∈ c.childList n ∧ k ≠ k' ∧
    waiting c queue k' ≤ waiting c queue k ∧ WaitsBelow c k a ∧ WaitsBelow c k' b

open Classical in
/-- The requests of the tree, each one once. -/
theorem perm_sortByDfsWeight (h : WF c live rp pv)
    (hperm : ∀ n, (children n).Perm (c.childList n)) :
    (sortByDfsWeight children c queue).Perm (queue.filter (WaitsBelow c rootNode)) := by
  have hroot : rootNode ∈ live := h.labelled.rootLive
  have hsize : 0 < c.nodes.size := Nat.zero_lt_of_lt (h.bound _ hroot)
  obtain ⟨fuel, hfuel⟩ := Nat.exists_eq_succ_of_ne_zero hsize.ne'
  set weight := calcWeight children c.nodes.size rootNode fun n => (lastNodeToReqs queue n).length
    with hweight
  have hkids : ∀ n, (heaviestFirst children weight n).Perm (c.childList n) := fun n =>
    (List.perm_insertionSort _ _).trans (hperm n)
  obtain ⟨hlists, hforest⟩ := isForest_of_perm h hkids
  set l := rootNode :: descendants (heaviestFirst children weight) fuel rootNode with hl
  have hunder : ∀ m, m ∈ l ↔ Under (heaviestFirst children weight) rootNode m := by
    intro m
    rw [hl, List.mem_cons]
    constructor
    · rintro (rfl | hm)
      · exact Under.refl rootNode
      · obtain ⟨k, hk, hu⟩ := under_of_mem hm
        exact Under.step hk hu
    · intro hu
      refine or_iff_not_imp_left.mpr fun hne => mem_descendants hforest fuel rootNode
        (Finset.range c.nodes.size) hroot (fun x hx => ?_) ?_ m hu hne
      · exact Finset.mem_range.mpr (h.bound x (hforest.mem_of_under hx hroot))
      · rw [Finset.card_range, hfuel]
  have hnd : l.Nodup := by
    refine List.nodup_cons.mpr ⟨fun hm => ?_, nodup_descendants hforest fuel rootNode hroot⟩
    obtain ⟨k, hk, hu⟩ := under_of_mem hm
    exact hforest.acyclic rootNode hroot k hk hu
  have hlist : sortByDfsWeight children c queue =
      postorder (heaviestFirst children weight) (lastNodeToReqs queue) (fuel + 1) rootNode := by
    rw [sortByDfsWeight, getDfsPriority_eq, List.nil_append, ← hweight, hfuel]
  rw [hlist]
  refine (perm_postorder _ _ fuel rootNode).trans ((flatMap_lastNodeToReqs_perm queue hnd).trans ?_)
  refine List.Perm.of_eq (List.filter_congr fun r _ => decide_eq_decide.mpr ?_)
  constructor
  · rintro ⟨m, hm, hr⟩
    exact ⟨m, hr, (under_iff_below hlists).mp ((hunder m).mp hm)⟩
  · rintro ⟨m, hr, hb⟩
    exact ⟨m, (hunder m).mpr ((under_iff_below hlists).mpr hb), hr⟩

/-- The weights of `_sort_by_dfs_weight` are the numbers of requests that wait. -/
theorem calcWeight_eq (h : WF c live rp pv) (hperm : ∀ n, (children n).Perm (c.childList n))
    (queue : List Req) {n : NodeId} (hn : n ∈ live) :
    calcWeight children c.nodes.size rootNode (fun m => (lastNodeToReqs queue m).length) n =
      waiting c queue n := by
  obtain ⟨hlists, hforest⟩ := isForest_of_perm h hperm
  have hroot : rootNode ∈ live := h.labelled.rootLive
  have hcard : (subtree children c.tree rootNode).card ≤ c.nodes.size := by
    refine (Finset.card_le_card fun m hm => ?_).trans (Nat.le_of_eq (Finset.card_range _))
    exact Finset.mem_range.mpr (h.bound m (h.mem_tree.mp (mem_subtree.mp hm).1))
  have hw := weighed_calcWeight hforest (fun m hm => h.mem_tree.mpr hm) c.nodes.size rootNode
    (fun m => (lastNodeToReqs queue m).length) hroot hcard
  rw [hw.below n ((under_iff_below hlists).mpr (h.labelled.live_iff_below.mp hn)),
    weightBelow_eq h hlists hforest queue hn]

open Classical in
/--
**The order along the tree.**  Whatever order the dictionaries of the tree have, the sorted queue
lists each request once that waits at a node of the tree, and no other; those at or below one
node stand together; and of any two, listed one after the other, both wait at one node and came
in this order, or the first waits below the second, or below the node where their paths part the
first waits below a child at or below which no fewer requests wait.
-/
theorem sortByDfsWeight_order (hc : Sound c) (hperm : ∀ n, (children n).Perm (c.childList n))
    (queue : List Req) :
    (sortByDfsWeight children c queue).Perm (queue.filter (WaitsBelow c rootNode)) ∧
      (∀ n, c.InTree n → Contiguous (WaitsBelow c n) (sortByDfsWeight children c queue)) ∧
      (sortByDfsWeight children c queue).Pairwise fun a b =>
        (a.lastNode = b.lastNode ∧ [a, b].Sublist queue) ∨
        (a.lastNode ≠ b.lastNode ∧ ∃ n, b.lastNode = some n ∧ WaitsBelow c n a) ∨
        BeforeSibling c queue a b := by
  obtain ⟨live, rp, pv, h⟩ := hc
  have hroot : rootNode ∈ live := h.labelled.rootLive
  set weight := calcWeight children c.nodes.size rootNode fun n => (lastNodeToReqs queue n).length
    with hweight
  have hsort : ∀ n, (heaviestFirst children weight n).Perm (children n) := fun n =>
    List.perm_insertionSort _ _
  obtain ⟨hlists, hforest⟩ := isForest_of_perm h fun n => (hsort n).trans (hperm n)
  have hlist : sortByDfsWeight children c queue =
      postorder (heaviestFirst children weight) (lastNodeToReqs queue) c.nodes.size rootNode := by
    rw [sortByDfsWeight, getDfsPriority_eq, List.nil_append]
  set home : Req → NodeId := fun r => r.lastNode.getD rootNode with hhomeDef
  have hhome : ∀ n, ∀ r ∈ lastNodeToReqs queue n, home r = n := by
    intro n r hr
    have hr : r.lastNode = some n := of_decide_eq_true (List.mem_filter.mp hr).2
    simp [hhomeDef, hr]
  have hall : (sortByDfsWeight children c queue).Perm (queue.filter (WaitsBelow c rootNode)) :=
    perm_sortByDfsWeight h hperm
  -- who is listed waits somewhere
  have hat : ∀ r ∈ sortByDfsWeight children c queue, r.lastNode = some (home r) := by
    intro r hr
    obtain ⟨m, hm, -⟩ := of_decide_eq_true (List.mem_filter.mp (hall.mem_iff.mp hr)).2
    simp [hhomeDef, hm]
  have hwaits : ∀ n, ∀ r ∈ sortByDfsWeight children c queue,
      Under (heaviestFirst children weight) n (home r) ↔ WaitsBelow c n r := by
    intro n r hr
    rw [under_iff_below hlists]
    refine ⟨fun hb => ⟨home r, hat r hr, hb⟩, fun ⟨m, hm, hb⟩ => ?_⟩
    rw [hat r hr, Option.some.injEq] at hm
    rwa [hm]
  refine ⟨hall, fun n hn => ?_, ?_⟩
  · have hu := (under_iff_below hlists).mpr hn
    refine Contiguous.congr ?_ (hwaits n)
    rw [hlist]
    exact contiguous_postorder hforest hhome c.nodes.size rootNode n hroot hu
  · have hchildren : ∀ n ∈ live, (heaviestFirst children weight n).Pairwise fun k k' =>
        k ≠ k' ∧ weight k' ≤ weight k := by
      intro n hn
      refine (nodup_kids hforest hn).imp₂ (fun k k' hne hle => ⟨hne, ?_⟩)
        (pairwise_sorted (fun k => -(weight k : Int)) (children n))
      omega
    have hqueue : ∀ n, (lastNodeToReqs queue n).Pairwise fun a b => [a, b].Sublist queue := by
      intro n
      refine List.pairwise_iff_forall_sublist.mpr fun {a b} hab => ?_
      exact hab.trans List.filter_sublist
    have hpair := pairwise_postorder hforest hchildren hhome hqueue c.nodes.size rootNode hroot
    rw [← hlist] at hpair
    refine hpair.imp_of_mem fun {a b} ha hb hab => ?_
    rcases hab with ⟨heq, hsub⟩ | ⟨hne, hu⟩ | ⟨n, hn, k, hk, k', hk', ⟨hne, hle⟩, hu, hu'⟩
    · exact Or.inl ⟨by rw [hat a ha, hat b hb, heq], hsub⟩
    · refine Or.inr (Or.inl ⟨?_, home b, hat b hb, (hwaits (home b) a ha).mp hu⟩)
      rw [hat a ha, hat b hb]
      exact fun heq => hne (Option.some.inj heq)
    · have hmem : ∀ {x}, x ∈ heaviestFirst children weight n → x ∈ c.childList n := fun hx =>
        (hperm n).mem_iff.mp ((hsort n).mem_iff.mp hx)
      rw [hweight, calcWeight_eq h hperm queue (hforest.closed n hn k hk),
        calcWeight_eq h hperm queue (hforest.closed n hn k' hk')] at hle
      exact Or.inr (Or.inr ⟨n, k, k', h.inTree_iff.mpr hn, hmem hk, hmem hk', hne, hle,
        (hwaits k a ha).mp hu, (hwaits k' b hb).mp hu'⟩)

/-- Two prompts that part after their first token. -/
def twoBranches : RadixCache :=
  ((createSimulated.insert (HeldCache.plainPrompt [1, 2])).2.insert
    (HeldCache.plainPrompt [1, 3])).2

theorem sound_twoBranches : Sound twoBranches := by
  have hnew : Sound createSimulated := ⟨_, _, _, new_wf Nat.one_pos false⟩
  exact ((hnew.step (Step.insert _ _)).1.step (Step.insert _ _)).1

/-- One request at the first prompt, two at the second, and one above them. -/
def fourWaiting : List Req :=
  [⟨"a", [1, 2], [], none, [], some 1, false⟩, ⟨"b", [1, 3], [], none, [], some 3, false⟩,
    ⟨"c", [1, 3], [], none, [], some 3, false⟩, ⟨"d", [1], [], none, [], some 2, false⟩]

/-- The two that share a node go first, and the one above them goes last. -/
theorem sortByDfsWeight_order_four :
    (sortByDfsWeight twoBranches.childList twoBranches fourWaiting).map (·.rid) =
      ["b", "c", "a", "d"] ∧
    Contiguous (WaitsBelow twoBranches 3)
      (sortByDfsWeight twoBranches.childList twoBranches fourWaiting) := by
  have h2 : twoBranches.heap.kid rootNode ⟨none, .token 1⟩ = some 2 := by decide
  have h3 : twoBranches.heap.kid 2 ⟨none, .token 3⟩ = some 3 := by decide
  have hin : twoBranches.InTree 3 := Below.step h2 (Below.step h3 (Below.refl 3))
  exact ⟨by decide +kernel,
    (sortByDfsWeight_order sound_twoBranches (fun _ => List.Perm.refl _) fourWaiting).2.1 3 hin⟩

end SchedulePolicy

end Peek

/-
What matching, inserting and evicting keep of the chains, the counts and the leaves.

Each of these calls is a series of splits, at most one new leaf, deletions, and writes to fields
that nothing here depends on (`Moves`).  The loops are gone through once, to find that series;
what is kept is then shown for one move.  The tree that the loops run through is carried along
as `WF`, since a split is a split only of a node that hangs in the tree.
-/
import Peek.Sglang.Chains

namespace Peek

open Radix ParentChain

namespace RadixCache

variable {c c' : RadixCache} {live : Set NodeId} {rp : NodeId → List ChildKey}
  {pv : NodeId → List Index}

/-! ### A split -/

/-- The objects after a split: the upper half, the cut node, and the others as they were. -/
theorem splitNode_links (c : RadixCache) {ch : NodeId} (hch : ch < c.nodes.size) (len : Nat) :
    (c.splitNode ch len).1.nodes.size = c.nodes.size + 1 ∧
    (c.splitNode ch len).1.parentOf ch = c.nodes.size ∧
    (c.splitNode ch len).1.parentOf c.nodes.size = c.parentOf ch ∧
    (∀ n, n < c.nodes.size → n ≠ ch → (c.splitNode ch len).1.parentOf n = c.parentOf n) ∧
    (∀ f, ((c.splitNode ch len).1.node c.nodes.size).refs f = (c.node ch).refs f) ∧
    ∀ f n, n < c.nodes.size → ((c.splitNode ch len).1.node n).refs f = (c.node n).refs f := by
  have hsize := size_pushNode c (c.upperHalf ch len)
  obtain ⟨hnew, hold⟩ := node_pushNode c (c.upperHalf ch len)
  have hrefs := fun f => proj_splitNode (·.refs f) (fun _ _ _ _ => by cases f <;> rfl)
    (fun _ _ => by cases f <;> rfl) c ch len
  have hparent : ∀ n, (c.splitNode ch len).1.parentOf n =
      (((c.pushNode (c.upperHalf ch len)).nodeMut ch (c.lowerHalf ch len)).node n).parent :=
    fun n => proj_nodeMut (·.parent) _ _ (c.withUpper ch) (fun _ => rfl) n
  have hne : c.nodes.size ≠ ch := Ne.symm (Nat.ne_of_lt hch)
  refine ⟨?_, ?_, ?_, fun n hn hnc => ?_, fun f => ?_, fun f => (hrefs f).2⟩
  · rw [splitNode_eq, size_nodeMut, size_nodeMut, hsize]
  · rw [hparent, node_nodeMut_self _ _ (hsize ▸ Nat.lt_succ_of_lt hch)]
    rfl
  · rw [hparent, node_nodeMut_ne _ _ hne, hnew]
    rfl
  · rw [hparent, node_nodeMut_ne _ _ hnc, hold n hn]
    rfl
  · rw [(hrefs f).1]
    cases f <;> rfl

theorem splitNode_isCut (h : Chained c) {ch : NodeId} (hch : ch < c.nodes.size)
    (hr : ch ≠ rootNode) (len : Nat) : IsCut {n | n < c.nodes.size} c.parentOf
      (c.splitNode ch len).1.parentOf rootNode ch c.nodes.size where
  fresh := Nat.lt_irrefl _
  rootMem := h.root
  mem := hch
  ne_root := hr
  below := (splitNode_links c hch len).2.1
  above := (splitNode_links c hch len).2.2.1
  same := (splitNode_links c hch len).2.2.2.1

theorem chained_splitNode (h : Chained c) {ch : NodeId} (hch : ch < c.nodes.size)
    (hr : ch ≠ rootNode) (len : Nat) : Chained (c.splitNode ch len).1 := by
  have hcut := splitNode_isCut h hch hr len
  obtain ⟨hsize, hbelow, habove, hsame, -⟩ := splitNode_links c hch len
  have hold : ∀ n, n < c.nodes.size →
      ∃ k, Up (c.splitNode ch len).1.parentOf rootNode k n := by
    intro n hn
    obtain ⟨k, hk⟩ := h.up n hn
    exact up_cut h.closed hcut hn hk
  refine ⟨?_, fun n hn hnr => ?_, fun n hn => ?_⟩
  · rw [hsize]; exact Nat.lt_succ_of_lt h.root
  · rw [hsize] at hn ⊢
    by_cases hnu : n = c.nodes.size
    · rw [hnu, habove]
      exact Nat.lt_succ_of_lt (h.parent ch hch hr)
    · have hn : n < c.nodes.size := by omega
      by_cases hnc : n = ch
      · rw [hnc, hbelow]; exact Nat.lt_succ_self _
      · rw [hsame n hn hnc]; exact Nat.lt_succ_of_lt (h.parent n hn hnr)
  · rw [hsize] at hn
    by_cases hnu : n = c.nodes.size
    · obtain ⟨k, hk⟩ := hold _ (h.parent ch hch hr)
      refine ⟨k + 1, Up.step ?_ ?_⟩
      · rw [hnu]; exact fun hroot => Nat.lt_irrefl _ (hroot ▸ h.root)
      · rw [hnu, habove]; exact hk
    · exact hold n (by omega)

/-- **A split keeps the counts**: what passed the node passes both halves. -/
theorem keeps_splitNode (h : WF c live rp pv) {ch : NodeId} (hch : ch ∈ live)
    (hr : ch ≠ rootNode) (len : Nat) :
    Keeps c live (c.splitNode ch len).1 (Insert.insert c.nodes.size live) := by
  have hlt := h.bound ch hch
  have hs : IsSplit c (c.splitNode ch len).1 live ch c.nodes.size len := splitNode_isSplit h hch hr len
  obtain ⟨hsize, -, -, -, hnew, hold⟩ := splitNode_links c hlt len
  refine ⟨later_splitNode c ch len, fun hc => chained_splitNode hc hlt hr len, ?_,
    fun f => hold f _ (h.bound _ h.labelled.rootLive), ?_⟩
  · intro hc f entries hcount
    have hc' := chained_splitNode hc hlt hr len
    have hcut := splitNode_isCut hc hlt hr len
    have hbound : ∀ e ∈ entries, e < c.nodes.size ∧ e < (c.splitNode ch len).1.nodes.size := by
      intro e he
      rw [hsize]
      exact ⟨hcount.bound e he, Nat.lt_succ_of_lt (hcount.bound e he)⟩
    refine ⟨fun e he => (hbound e he).2, fun n hn hnr => ?_⟩
    rcases hn with rfl | hn
    · rw [hnew, hcount.count ch hch hr]
      refine congrArg Nat.cast (passing_congr hc hc' hbound fun e he => ?_).symm
      rw [passes_cut_iff hc.closed hcut he]
      constructor
      · intro hp
        rcases hp with hp | ⟨-, hp⟩
        · exact absurd (hp.mem hc.closed he) (Nat.lt_irrefl _)
        · exact hp
      · exact fun hp => Or.inr ⟨rfl, hp⟩
    · have hnlt := h.bound n hn
      rw [hold f n hnlt, hcount.count n hn hnr]
      refine congrArg Nat.cast (passing_congr hc hc' hbound fun e he => ?_).symm
      rw [passes_cut_iff hc.closed hcut he]
      exact or_iff_left fun hnu => absurd hnu.1 (Nat.ne_of_lt hnlt)
  · -- the new node has a child, and the old ones are leaves as before
    intro hleaves n
    unfold LeafStatus
    rw [hs.leaves]
    by_cases hnu : n = c.nodes.size
    · subst hnu
      refine iff_of_false (fun hmem => hs.fresh ((hleaves _).mp hmem).1) fun hleaf => ?_
      rw [hs.newChildren] at hleaf
      exact absurd hleaf.2.2.1 (List.cons_ne_nil _ _)
    · have hmem : n ∈ Insert.insert c.nodes.size live ↔ n ∈ live := or_iff_right hnu
      have hiff : n ∈ c.evictableLeaves ↔ n ∈ live ∧ n ≠ rootNode ∧
          (c.node n).children.entries = [] ∧ (c.node n).lockRef ≤ 0 := hleaves n
      rw [hiff, hmem]
      refine and_congr_right fun hn => and_congr_right fun hnr => ?_
      by_cases hnc : n = ch
      · rw [hnc, hs.nodeAt]
      · by_cases hnp : n = (c.node ch).parent
        · rw [hnp, hs.nodeParent]
          obtain ⟨a, -, -, hk⟩ := h.labelled.up hch hr
          refine and_congr_left fun _ => iff_of_false (fun hnil => ?_) fun hnil => ?_
          · rw [heap_kid, heap_parent, Map.entries_eq_nil_iff.mp hnil] at hk
            simp at hk
          · have := Map.entries_eq_nil_iff.mp hnil (getChildKey (c.node ch).key c.pageSize)
            rw [Map.lookup_insert_of, if_pos rfl] at this
            simp at this
        · rw [hs.nodeOld n hn hnc hnp]

/-! ### A new leaf -/

/-- The links of all objects after a leaf was hung. -/
theorem addLeaf_links (c : RadixCache) (w : InsertWalk) (priority : Int) :
    (c.addLeaf w priority).nodes.size = c.nodes.size + 1 ∧
    (c.addLeaf w priority).parentOf c.nodes.size = w.node ∧
    (∀ n, n < c.nodes.size → (c.addLeaf w priority).parentOf n = c.parentOf n) ∧
    (∀ f, ((c.addLeaf w priority).node c.nodes.size).refs f = 0) ∧
    ∀ f n, n < c.nodes.size → ((c.addLeaf w priority).node n).refs f = (c.node n).refs f := by
  have hsize := size_pushNode c (c.newLeaf w priority)
  obtain ⟨hat, hold⟩ := node_pushNode c (c.newLeaf w priority)
  have hnode : ∀ n, (c.addLeaf w priority).node n =
      ((c.pushNode (c.newLeaf w priority)).nodeMut w.node (c.withLeaf w)).node n := by
    intro n
    unfold addLeaf
    rw [node_updateLeafStatus, node_updateLeafStatus, node_linkLeaf]
  have hparent : ∀ n, (c.addLeaf w priority).parentOf n =
      ((c.pushNode (c.newLeaf w priority)).node n).parent := by
    intro n
    unfold parentOf
    rw [hnode]
    exact proj_nodeMut (·.parent) _ w.node (c.withLeaf w) (fun _ => rfl) n
  have hrefs : ∀ f n, ((c.addLeaf w priority).node n).refs f =
      ((c.pushNode (c.newLeaf w priority)).node n).refs f := by
    intro f n
    rw [hnode]
    exact proj_nodeMut (·.refs f) _ w.node (c.withLeaf w) (fun _ => by cases f <;> rfl) n
  refine ⟨?_, ?_, fun n hn => ?_, fun f => ?_, fun f n hn => ?_⟩
  · unfold addLeaf
    rw [size_updateLeafStatus, size_updateLeafStatus]
    exact (size_nodeMut _ w.node (c.withLeaf w)).trans hsize
  · rw [hparent, hat]
    rfl
  · rw [hparent, hold n hn]
    rfl
  · rw [hrefs, hat]
    cases f <;> rfl
  · rw [hrefs, hold n hn]

theorem chained_addLeaf (h : Chained c) {w : InsertWalk} (hw : w.node < c.nodes.size)
    (priority : Int) : Chained (c.addLeaf w priority) := by
  obtain ⟨hsize, hnew, hold, -⟩ := addLeaf_links c w priority
  have hup : ∀ n, n < c.nodes.size →
      ∃ k, Up (c.addLeaf w priority).parentOf rootNode k n := by
    intro n hn
    obtain ⟨k, hk⟩ := h.up n hn
    exact ⟨k, up_congr h.closed hold hn hk⟩
  refine ⟨?_, fun n hn hr => ?_, fun n hn => ?_⟩
  · rw [hsize]; exact Nat.lt_succ_of_lt h.root
  · rw [hsize] at hn ⊢
    by_cases hnu : n = c.nodes.size
    · rw [hnu, hnew]; exact Nat.lt_succ_of_lt hw
    · have hn : n < c.nodes.size := by omega
      rw [hold n hn]
      exact Nat.lt_succ_of_lt (h.parent n hn hr)
  · rw [hsize] at hn
    by_cases hnu : n = c.nodes.size
    · obtain ⟨k, hk⟩ := hup _ hw
      refine ⟨k + 1, Up.step ?_ ?_⟩
      · rw [hnu]; exact fun hroot => Nat.lt_irrefl _ (hroot ▸ h.root)
      · rw [hnu, hnew]; exact hk
    · exact hup n (by omega)

/-- The leaf statuses a new leaf calls for: its own, and its parent's. -/
theorem leavesExact_addLeaf (h : WF c live rp pv) (hleaves : LeavesExact c live) {w : InsertWalk}
    (hw : w.node ∈ live) (priority : Int) :
    LeavesExact (c.addLeaf w priority) (Insert.insert c.nodes.size live) := by
  have hs := linkLeaf_isLinked h hw priority
  unfold addLeaf
  set c1 := c.linkLeaf w priority with hc1
  have hroot : 0 < (c1.node rootNode).lockRef := by
    have hold := (hs.old_fields (m := rootNode) h.labelled.rootLive).2.2.2
    rw [hold]
    exact h.rootLock
  have hnd : c1.evictableLeaves.Nodup := by rw [hs.leaves]; exact h.leavesNodup
  intro n
  by_cases hnu : n = c.nodes.size
  · rw [hnu]
    exact leafStatus_updateLeafStatus_self (nodup_leaves_updateLeafStatus hnd _)
      (by rw [node_updateLeafStatus]; exact hroot) (Or.inl rfl)
  · rw [leafStatus_updateLeafStatus_ne hnu]
    by_cases hnw : n = w.node
    · rw [hnw]
      exact leafStatus_updateLeafStatus_self hnd hroot (Or.inr hw)
    · rw [leafStatus_updateLeafStatus_ne hnw]
      have hiff : n ∈ c.evictableLeaves ↔ n ∈ live ∧ n ≠ rootNode ∧
          (c.node n).children.entries = [] ∧ (c.node n).lockRef ≤ 0 := hleaves n
      have hmem : n ∈ Insert.insert c.nodes.size live ↔ n ∈ live := or_iff_right hnu
      unfold LeafStatus
      rw [hs.leaves, hiff, hmem]
      refine and_congr_right fun hn => ?_
      rw [hs.nodeOld n hn hnw]

/-- **A new leaf keeps the counts**: no climb passes it. -/
theorem keeps_addLeaf (h : WF c live rp pv) {w : InsertWalk} (hw : w.node ∈ live)
    (priority : Int) :
    Keeps c live (c.addLeaf w priority) (Insert.insert c.nodes.size live) := by
  have hlt := h.bound _ hw
  obtain ⟨hsize, -, hold, hnew, hrefs⟩ := addLeaf_links c w priority
  refine ⟨later_addLeaf c w priority, fun hc => chained_addLeaf hc hlt priority, ?_,
    fun f => hrefs f _ (h.bound _ h.labelled.rootLive),
    fun hleaves => leavesExact_addLeaf h hleaves hw priority⟩
  intro hc f entries hcount
  have hc' := chained_addLeaf hc hlt priority
  have hbound : ∀ e ∈ entries, e < c.nodes.size ∧ e < (c.addLeaf w priority).nodes.size := by
    intro e he
    rw [hsize]
    exact ⟨hcount.bound e he, Nat.lt_succ_of_lt (hcount.bound e he)⟩
  have hpass : ∀ e, e < c.nodes.size → ∀ n,
      Passes (c.addLeaf w priority).parentOf rootNode e n ↔ Passes c.parentOf rootNode e n :=
    fun e he n => passes_congr hc.closed hold he n
  refine ⟨fun e he => (hbound e he).2, fun n hn hr => ?_⟩
  rcases hn with rfl | hn
  · rw [hnew, eq_comm, Int.natCast_eq_zero]
    unfold passing
    rw [List.countP_eq_zero]
    intro e he hmem
    rw [decide_eq_true_eq, hc'.mem_chain_iff (hbound e he).2, hpass e (hbound e he).1] at hmem
    exact absurd (hmem.mem hc.closed (hbound e he).1) (Nat.lt_irrefl _)
  · rw [hrefs f n (h.bound n hn), hcount.count n hn hr]
    exact congrArg Nat.cast (passing_congr hc hc' hbound fun e he => hpass e he n).symm

/-! ### Deleting a leaf -/

/-- **A deletion keeps the counts** of the nodes that stay. -/
theorem keeps_deleteLeaf (h : WF c live rp pv) {n : NodeId} (hn : n ∈ live) (hr : n ≠ rootNode) :
    Keeps c live (c.deleteLeaf n) (live \ {n}) := by
  have hp : (c.node n).parent ∈ live := h.labelled.parent_live hn hr
  have hpn : (c.node n).parent ≠ n := h.labelled.parent_ne_self hn hr
  set cut : TreeNode → TreeNode := fun p =>
    { p with children := p.children.erase (getChildKey (c.node n).key c.pageSize) } with hcut
  set c1 := c.nodeMut (c.node n).parent cut with hc1
  set c2 : RadixCache := { c1 with
    evictableSize := c1.evictableSize - (c1.node n).key.length
    evictableLeaves := c1.evictableLeaves.erase n } with hc2
  have hdel : c.deleteLeaf n = c2.updateLeafStatus (c.node n).parent := rfl
  have hnode : ∀ m, (c.deleteLeaf n).node m = c1.node m := by
    intro m
    rw [hdel, node_updateLeafStatus]
    rfl
  have hlinks : SameLinks c (c.deleteLeaf n) := by
    refine ⟨later_deleteLeaf c n, ?_, fun m => ?_, fun f m => ?_⟩
    · rw [hdel, size_updateLeafStatus]
      exact size_nodeMut c _ cut
    · unfold parentOf
      rw [hnode]
      exact proj_nodeMut (·.parent) c _ cut (fun _ => rfl) m
    · rw [hnode]
      exact proj_nodeMut (·.refs f) c _ cut (fun _ => by cases f <;> rfl) m
  refine hlinks.keeps Set.sdiff_subset fun hleaves m => ?_
  have hroot : 0 < (c2.node rootNode).lockRef := by
    have hlock := proj_nodeMut (·.lockRef) c (c.node n).parent cut (fun _ => rfl) rootNode
    show 0 < (c1.node rootNode).lockRef
    rw [hc1, hlock]
    exact h.rootLock
  have hnd : c2.evictableLeaves.Nodup := h.leavesNodup.erase n
  rw [hdel]
  by_cases hmp : m = (c.node n).parent
  · rw [hmp]
    exact leafStatus_updateLeafStatus_self hnd hroot ⟨hp, hpn⟩
  · rw [leafStatus_updateLeafStatus_ne hmp]
    have hiff : m ∈ c.evictableLeaves ↔ m ∈ live ∧ m ≠ rootNode ∧
        (c.node m).children.entries = [] ∧ (c.node m).lockRef ≤ 0 := hleaves m
    have hmem : m ∈ c2.evictableLeaves ↔ m ≠ n ∧ m ∈ c.evictableLeaves :=
      h.leavesNodup.mem_erase_iff
    have hsame : c2.node m = c.node m := node_nodeMut_ne c cut hmp
    have hlive : m ∈ live \ {n} ↔ m ≠ n ∧ m ∈ live :=
      ⟨fun h => ⟨h.2, h.1⟩, fun h => ⟨h.2, h.1⟩⟩
    unfold LeafStatus
    rw [hmem, hiff, hsame, hlive, and_assoc]

/-! ### Moves -/

/-- One of the things that a call does to the objects, and to the tree among them. -/
inductive Move : RadixCache × Set NodeId → RadixCache × Set NodeId → Prop
  | tick (c : RadixCache) (live : Set NodeId) (k : Nat) : Move (c, live) (c.tick k, live)
  | touch (c : RadixCache) (live : Set NodeId) (j : NodeId) {f : TreeNode → TreeNode}
      (hf : Bookkeeping f) (hq : ∀ n, (f n).queueRefCount = n.queueRefCount)
      (hd : ∀ n, (f n).depth = n.depth) : Move (c, live) (c.nodeMut j f, live)
  | split {c : RadixCache} {live : Set NodeId} {rp : NodeId → List ChildKey}
      {pv : NodeId → List Index} (h : WF c live rp pv) {ch : NodeId} (hch : ch ∈ live)
      (hr : ch ≠ rootNode) {len : Nat} (hlen : len < (c.node ch).key.length) :
      Move (c, live) ((c.splitNode ch len).1, Insert.insert c.nodes.size live)
  | addLeaf {c : RadixCache} {live : Set NodeId} {rp : NodeId → List ChildKey}
      {pv : NodeId → List Index} (h : WF c live rp pv) {w : InsertWalk} (hw : w.node ∈ live)
      (priority : Int) : Move (c, live) (c.addLeaf w priority, Insert.insert c.nodes.size live)
  | deleteLeaf {c : RadixCache} {live : Set NodeId} {rp : NodeId → List ChildKey}
      {pv : NodeId → List Index} (h : WF c live rp pv) {n : NodeId} (hn : n ∈ live)
      (hr : n ≠ rootNode) : Move (c, live) (c.deleteLeaf n, live \ {n})

/-- A series of them. -/
abbrev Moves (c : RadixCache) (live : Set NodeId) (c' : RadixCache) (live' : Set NodeId) : Prop :=
  Relation.ReflTransGen Move (c, live) (c', live')

theorem Move.keeps {x y : RadixCache × Set NodeId} (hm : Move x y) : Keeps x.1 x.2 y.1 y.2 := by
  cases hm with
  | tick c live k => exact keeps_tick c live k
  | touch c live j hf hq hd =>
      exact keeps_nodeMut c live j _ hf.parent hf.children hf.lockRef hq
  | split h hch hr hlen => exact keeps_splitNode h hch hr _
  | addLeaf h hw priority => exact keeps_addLeaf h hw priority
  | deleteLeaf h hn hr => exact keeps_deleteLeaf h hn hr

/-- **Moves keep the counts.** -/
theorem Moves.keeps {c c' : RadixCache} {live live' : Set NodeId} (hm : Moves c live c' live') :
    Keeps c live c' live' := by
  suffices key : ∀ x y : RadixCache × Set NodeId, Relation.ReflTransGen Move x y →
      Keeps x.1 x.2 y.1 y.2 from key _ _ hm
  intro x y hxy
  induction hxy with
  | refl => exact Keeps.refl x.1 x.2
  | tail _ hmove ih => exact ih.trans hmove.keeps

/-! ### Matching -/

/-- The child found under a key's first symbol is split inside its edge or walked through. -/
theorem keyMatch_lt_split (h : WF c live rp pv) {n ch : NodeId} {key : RadixKey} (hn : n ∈ live)
    (hpos : key.length > 0) (hkid : c.heap.kid n (getChildKey key c.pageSize) = some ch)
    (hcut : keyMatch c.pageSize (c.node ch).key key < (c.node ch).key.length) :
    ∃ live' rp' pv', WF (c.splitNode ch (keyMatch c.pageSize (c.node ch).key key)).1 live' rp' pv' ∧
      Moves c live (c.splitNode ch (keyMatch c.pageSize (c.node ch).key key)).1 live' ∧
      live ⊆ live' ∧ (c.splitNode ch (keyMatch c.pageSize (c.node ch).key key)).2 ∈ live' := by
  have hps := h.pageSize_pos
  have hch := h.labelled.kidLive hn hkid
  have hr := h.labelled.kid_ne_root hn hkid
  have hne : key.tokenIds ≠ [] := List.ne_nil_of_length_pos hpos
  have hhead := RadixKey.head_symbols hps hne
  rw [keyMatch_kid h hn hkid] at hcut ⊢
  set l := lcpLen (c.heap.edge ch) (key.symbols c.pageSize) with hl
  have hlpos : 0 < l := by
    have hfirst : (key.symbols c.pageSize)[0]? = some (getChildKey key c.pageSize) := by
      rw [← List.head?_eq_getElem?]
      exact hhead
    have hwalk := h.labelled.walk_pos hn hfirst hkid
    rw [List.drop_zero] at hwalk
    exact hwalk
  have hlt : l < (c.heap.edge ch).length := (RadixKey.lt_length_symbols_iff hps).mpr hcut
  have hs := splitNode_isSplit h hch hr (c.pageSize * l)
  have hgrow := hs.splitOnly h hch hr hlpos hlt
  exact ⟨_, _, _, hgrow.wf, .single (Move.split h hch hr hcut), hgrow.sub, Or.inl rfl⟩

/-- A write that the invariants do not look at. -/
theorem touch_moves (h : WF c live rp pv) (j : NodeId) {f : TreeNode → TreeNode}
    (hf : Bookkeeping f) (hq : ∀ n, (f n).queueRefCount = n.queueRefCount)
    (hd : ∀ n, (f n).depth = n.depth) :
    WF (c.nodeMut j f) live rp pv ∧ Moves c live (c.nodeMut j f) live :=
  ⟨h.sameTree (sameTree_nodeMut c j hf), .single (Move.touch c live j hf hq hd)⟩

/-- Such a write, or none. -/
theorem touch_ite_moves (b : Bool) (h : WF c live rp pv) (j : NodeId) {f : TreeNode → TreeNode}
    (hf : Bookkeeping f) (hq : ∀ n, (f n).queueRefCount = n.queueRefCount)
    (hd : ∀ n, (f n).depth = n.depth) :
    WF (if b then c.nodeMut j f else c) live rp pv ∧
      Moves c live (if b then c.nodeMut j f else c) live := by
  cases b with
  | true => exact touch_moves h j hf hq hd
  | false => exact ⟨h, .refl⟩

theorem matchLoop_moves (updateLru : Bool) (t : Nat) :
    ∀ (fuel : Nat) (c : RadixCache) (n : NodeId) (key : RadixKey) (value : List Index),
      WF c live rp pv → n ∈ live → ∃ live' rp' pv',
        WF (matchLoop updateLru t fuel c n key value).1 live' rp' pv' ∧
        Moves c live (matchLoop updateLru t fuel c n key value).1 live' ∧ live ⊆ live' := by
  intro fuel
  induction fuel with
  | zero => intro c n key value h _; exact ⟨live, rp, pv, h, .refl, fun _ hm => hm⟩
  | succ fuel ih =>
      intro c n key value h hn
      unfold matchLoop
      by_cases hpos : key.length > 0
      · rw [if_pos hpos]
        cases hkid : (c.node n).children.lookup (getChildKey key c.pageSize) with
        | none => exact ⟨live, rp, pv, h, .refl, fun _ hm => hm⟩
        | some ch =>
            have hkid : c.heap.kid n (getChildKey key c.pageSize) = some ch := hkid
            obtain ⟨h1, hmove⟩ := touch_ite_moves updateLru h ch (bookkeeping_accessTime t)
              (fun _ => rfl) fun _ => rfl
            have hsame := sameTree_ite updateLru c ch (bookkeeping_accessTime t)
            simp only
            set c1 := if updateLru = true then
              c.nodeMut ch fun m => { m with lastAccessTime := t } else c with hc1
            have hkid1 : c1.heap.kid n (getChildKey key c1.pageSize) = some ch := by
              rw [hsame.heap_eq, hsame.pageSize]; exact hkid
            by_cases hcut : keyMatch c1.pageSize (c1.node ch).key key < (c1.node ch).key.length
            · rw [if_pos hcut]
              obtain ⟨live', rp', pv', h2, hmove2, hsub, -⟩ := keyMatch_lt_split h1 hn hpos hkid1 hcut
              obtain ⟨h3, hmove3⟩ := touch_ite_moves updateLru h2
                (c1.splitNode ch (keyMatch c1.pageSize (c1.node ch).key key)).2
                bookkeeping_hitCount (fun _ => rfl) fun _ => rfl
              exact ⟨live', rp', pv', h3, (hmove.trans hmove2).trans hmove3, hsub⟩
            · rw [if_neg hcut]
              obtain ⟨h2, hmove2⟩ := touch_ite_moves updateLru h1 ch bookkeeping_hitCount
                (fun _ => rfl) fun _ => rfl
              obtain ⟨live', rp', pv', h3, hmove3, hsub⟩ :=
                ih _ ch (key.drop (keyMatch c1.pageSize (c1.node ch).key key)) _ h2
                  (h.labelled.kidLive hn hkid)
              exact ⟨live', rp', pv', h3, (hmove.trans hmove2).trans hmove3, hsub⟩
      · rw [if_neg hpos]
        exact ⟨live, rp, pv, h, .refl, fun _ hm => hm⟩

theorem matchPrefixWith_moves (h : WF c live rp pv) (updateLru : Bool) (key : RadixKey) :
    ∃ live' rp' pv', WF (c.matchPrefixWith updateLru key).2 live' rp' pv' ∧
      Moves c live (c.matchPrefixWith updateLru key).2 live' ∧ live ⊆ live' := by
  rw [matchPrefixWith_eq]
  split
  · exact ⟨live, rp, pv, h, .refl, fun _ hm => hm⟩
  · have hstart : WF (c.touchRoot updateLru) live rp pv ∧
        Moves c live (c.touchRoot updateLru) live := by
      cases updateLru with
      | true =>
          obtain ⟨h1, hmove⟩ := touch_moves (h.sameTree (sameTree_tick c 1)) rootNode
            (bookkeeping_accessTime c.clock) (fun _ => rfl) fun _ => rfl
          exact ⟨h1, hmove.head (Move.tick c live 1)⟩
      | false => exact ⟨h, .refl⟩
    obtain ⟨live', rp', pv', h2, hmove2, hsub⟩ := matchLoop_moves updateLru c.clock
      (c.pageAlign key).length _ rootNode (c.pageAlign key) [] hstart.1 h.labelled.rootLive
    exact ⟨live', rp', pv', h2, hstart.2.trans hmove2, hsub⟩

/-! ### Inserting -/

/-- A cache has one tree. -/
theorem WF.live_eq {live' : Set NodeId} {rp' : NodeId → List ChildKey} {pv' : NodeId → List Index}
    (h : WF c live rp pv) (h' : WF c live' rp' pv') : live = live' := by
  ext n
  rw [← h.inTree_iff, ← h'.inTree_iff]

theorem insertLoop_moves (priority : Int) (t : Nat) :
    ∀ (fuel : Nat) (c : RadixCache) (live : Set NodeId) (rp : NodeId → List ChildKey)
      (pv : NodeId → List Index) (w : InsertWalk), WF c live rp pv → w.node ∈ live →
      ∃ live' rp' pv', WF (insertLoop priority t fuel c w).1 live' rp' pv' ∧
        Moves c live (insertLoop priority t fuel c w).1 live' ∧
        (insertLoop priority t fuel c w).2.node ∈ live' := by
  intro fuel
  induction fuel with
  | zero => intro c live rp pv w h hw; exact ⟨live, rp, pv, h, .refl, hw⟩
  | succ fuel ih =>
      intro c live rp pv w h hw
      unfold insertLoop
      by_cases hpos : w.key.length > 0
      · rw [if_pos hpos]
        cases hkid : (c.node w.node).children.lookup (getChildKey w.key c.pageSize) with
        | none => exact ⟨live, rp, pv, h, .refl, hw⟩
        | some ch =>
            have hkid : c.heap.kid w.node (getChildKey w.key c.pageSize) = some ch := hkid
            obtain ⟨h1, hmove⟩ := touch_moves h ch (bookkeeping_accessTime t)
              (fun _ => rfl) fun _ => rfl
            have hsame := sameTree_nodeMut c ch (bookkeeping_accessTime t)
            simp only
            set c1 := c.nodeMut ch fun m => { m with lastAccessTime := t } with hc1
            have hkid1 : c1.heap.kid w.node (getChildKey w.key c1.pageSize) = some ch := by
              rw [hsame.heap_eq, hsame.pageSize]; exact hkid
            by_cases hcut : keyMatch c1.pageSize (c1.node ch).key w.key < (c1.node ch).key.length
            · rw [if_pos hcut]
              obtain ⟨live2, rp2, pv2, h2, hmove2, -, hu⟩ := keyMatch_lt_split h1 hw hpos hkid1 hcut
              obtain ⟨h3, hmove3⟩ := touch_moves h2
                (c1.splitNode ch (keyMatch c1.pageSize (c1.node ch).key w.key)).2
                (bookkeeping_priority priority) (fun _ => rfl) fun _ => rfl
              obtain ⟨live', rp', pv', hwf, hout, hend⟩ := ih _ live2 rp2 pv2
                { w with
                  node := (c1.splitNode ch (keyMatch c1.pageSize (c1.node ch).key w.key)).2
                  key := w.key.drop (keyMatch c1.pageSize (c1.node ch).key w.key)
                  value := w.value.drop (keyMatch c1.pageSize (c1.node ch).key w.key)
                  totalPrefixLength :=
                    w.totalPrefixLength + keyMatch c1.pageSize (c1.node ch).key w.key } h3 hu
              exact ⟨live', rp', pv', hwf, ((hmove.trans hmove2).trans hmove3).trans hout, hend⟩
            · rw [if_neg hcut]
              obtain ⟨h2, hmove2⟩ := touch_moves h1 ch (bookkeeping_priority priority)
                (fun _ => rfl) fun _ => rfl
              obtain ⟨live', rp', pv', hwf, hout, hend⟩ := ih _ live rp pv
                { w with
                  node := ch
                  key := w.key.drop (keyMatch c1.pageSize (c1.node ch).key w.key)
                  value := w.value.drop (keyMatch c1.pageSize (c1.node ch).key w.key)
                  totalPrefixLength :=
                    w.totalPrefixLength + keyMatch c1.pageSize (c1.node ch).key w.key } h2
                (h.labelled.kidLive hw hkid)
              exact ⟨live', rp', pv', hwf, (hmove.trans hmove2).trans hout, hend⟩
      · rw [if_neg hpos]
        exact ⟨live, rp, pv, h, .refl, hw⟩

theorem insertHelper_moves (h : WF c live rp pv) (key : RadixKey) {value : List Index}
    (hvalue : value.length = key.length) (priority : Int) :
    ∃ live' rp' pv', WF (c.insertHelper key value priority).2 live' rp' pv' ∧
      Moves c live (c.insertHelper key value priority).2 live' := by
  unfold insertHelper
  obtain ⟨h1, hmove⟩ := touch_moves (h.sameTree (sameTree_tick c 1)) rootNode
    ((bookkeeping_accessTime c.clock).comp (bookkeeping_priority priority)) (fun _ => rfl)
    fun _ => rfl
  have hmove := hmove.head (Move.tick c live 1)
  by_cases hempty : key.length = 0
  · rw [if_pos hempty]
    exact ⟨live, rp, pv, h1, hmove⟩
  · rw [if_neg hempty]
    obtain ⟨live2, rp2, pv2, h2, hmove2, hend⟩ := insertLoop_moves priority c.clock
      (key.length + 1) _ live rp pv ⟨rootNode, key, value, 0⟩ h1 h1.labelled.rootLive
    obtain ⟨live3, rp3, pv3, k, hgrow, hwalk, hfree⟩ :=
      insertLoop_root_walked h1 key hvalue priority c.clock
    have hlive : live3 = live2 := hgrow.wf.live_eq h2
    by_cases hpos : (insertLoop priority c.clock (key.length + 1) ((c.tick 1).nodeMut rootNode
        fun n => { n with lastAccessTime := c.clock, priority := max n.priority priority })
        ⟨rootNode, key, value, 0⟩).2.key.length > 0
    · simp only [if_pos hpos]
      obtain ⟨rp', pv', hwf, -⟩ := addLeaf_wf hgrow.wf hwalk hpos hfree priority
      rw [hlive] at hwf
      exact ⟨_, rp', pv', hwf, (hmove.trans hmove2).tail (Move.addLeaf h2 hend priority)⟩
    · simp only [if_neg hpos]
      exact ⟨live2, rp2, pv2, h2, hmove.trans hmove2⟩

theorem insert_moves (h : WF c live rp pv) (params : InsertParams) :
    ∃ live' rp' pv', WF (c.insert params).2 live' rp' pv' ∧
      Moves c live (c.insert params).2 live' := by
  unfold insert
  by_cases hd : c.disable = true
  · rw [if_pos hd]
    exact ⟨live, rp, pv, h, .refl⟩
  · rw [if_neg hd]
    refine insertHelper_moves h params.key ?_ params.priority
    cases hv : params.value with
    | none => rfl
    | some v => exact params.value_length v hv

/-! ### Evicting -/

theorem evict_moves (h : WF c live rp pv) (e : EvictionHeap) (numTokens : Nat) :
    ∃ live', WF (c.evict e numTokens).2 live' rp pv ∧
      Moves c live (c.evict e numTokens).2 live' := by
  suffices key : ∀ (fuel : Nat) (c : RadixCache) (live : Set NodeId)
      (heap : List (e.Priority × NodeId)) (freed : List Index), WF c live rp pv →
      HeapOk c live heap → ∃ live', WF (evictLoop e numTokens fuel c heap freed).2 live' rp pv ∧
        Moves c live (evictLoop e numTokens fuel c heap freed).2 live' by
    unfold evict
    by_cases hd : c.disable = true
    · rw [if_pos hd]
      exact ⟨live, h, .refl⟩
    · rw [if_neg hd]
      exact key c.nodes.size c live _ [] h (heapOk_start h _)
  intro fuel
  induction fuel with
  | zero => intro c live heap freed h _; exact ⟨live, h, .refl⟩
  | succ fuel ih =>
      intro c live heap freed h hheap
      unfold evictLoop
      by_cases hlt : freed.length < numTokens
      · rw [if_pos hlt]
        cases hpop : e.heappop c heap with
        | none => exact ⟨live, h, .refl⟩
        | some xr =>
            obtain ⟨x, rest⟩ := xr
            have hheap := hheap.perm (e.pop_perm c heap x rest hpop)
            obtain ⟨hx, hxr, hxk⟩ := hheap.leaf x List.mem_cons_self
            obtain ⟨live', hwf, hmove⟩ := ih _ _ _ (freed ++ (c.node x.2).value)
              (deleteLeaf_wf h hx hxr hxk) (hheap.next h _)
            exact ⟨live', hwf, hmove.head (Move.deleteLeaf h hx hxr)⟩
      · rw [if_neg hlt]
        exact ⟨live, h, .refl⟩

end RadixCache

end Peek
